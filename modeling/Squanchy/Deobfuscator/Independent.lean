import Squanchy.Deobfuscator.SameAt

/-!
# The listed functions do not see one another

One module goes through the whole run: a function is processed where others were rewritten
before it, and where the runtime was linked and helpers were marked for each of them. No listed
function carries `AlwaysInline`, so none of this reaches what its processing reads. Each listed
function comes out as if it were alone on the list, and the order of the list does not matter.
-/

namespace Squanchy

open Library

/-! ## What the others leave behind -/

/-- The module that `F` is processed in, once the runtime is in and the helpers are marked. -/
def readyFor (o : Options) (R : Module) (F : String) (M : Module) : Module :=
  setFunctionsAlwayInline o.ModuleName (linkRuntime (removeOptNone F M) R)

section Ready

variable {o : Options} {R M : Module} {F : String}

theorem declarations_readyFor :
    (readyFor o R F M).declarations = (linkRuntime M R).declarations := by
  rw [readyFor, declarations_setFunctionsAlwayInline, declarations_linkRuntime,
    declarations_linkRuntime M, removeOptNone,
    Module.declarations_modify (f := (·.removeFnAttr .optimizeNone)) fun _ => rfl]

theorem sameCode_readyFor : SameCode [] (linkRuntime M R) (readyFor o R F M) :=
  ((SameCode.removeOptNone F M).linkRuntime R).trans (.setFunctionsAlwayInline [] o.ModuleName _)

theorem attrsOf_readyFor (hF : (R.bodyOf F).isNone = true) (hM : (M.bodyOf F).isSome = true)
    (n : String) : (readyFor o R F M).attrsOf n =
      (((linkRuntime M R).attrsOf n).map
        (if n = F then (·.erase .optimizeNone) else id)).map
        (if n ∈ helperFunctions o.ModuleName then insert .alwaysInline else id) := by
  rw [readyFor, attrsOf_setFunctionsAlwayInline, attrsOf_link_removeOptNone hF hM]

/-- The helpers are marked, and what was marked before. -/
theorem marked_readyFor (hF : (R.bodyOf F).isNone = true) (hM : (M.bodyOf F).isSome = true)
    (n : String) : (readyFor o R F M).Marked n ↔
      ∃ a ∈ (linkRuntime M R).attrsOf n, n ∈ helperFunctions o.ModuleName ∨ .alwaysInline ∈ a := by
  unfold Module.Marked
  rw [attrsOf_readyFor hF hM]
  cases (linkRuntime M R).attrsOf n with
  | none => simp
  | some a =>
    by_cases hnF : n = F
    · subst hnF
      by_cases hn : n ∈ helperFunctions o.ModuleName <;> simp [hn]
    · by_cases hn : n ∈ helperFunctions o.ModuleName <;> simp [hn, hnF]

end Ready

theorem attrsAfter_of_not_both {a : Finset Attribute}
    (ha : .noInline ∈ a → .alwaysInline ∉ a) : attrsAfter false false a = a := by
  simp only [attrsAfter, Bool.false_eq_true, if_false]
  exact if_neg fun hboth => ha hboth.1 hboth.2

/-- A function that is processed is not one of the runtime's. -/
theorem runtime_bodyOf_of_ok {o : Options} {P : Optimizers} {I : InlineRuns} {R M M' : Module}
    {F : String} (h : deobfuscateFunction o P I R M F = .ok M') : R.bodyOf F = none :=
  Option.isNone_iff_eq_none.mp (attrsOf_deobfuscateFunction h F).1

/-- The module `N`, once linked, against the linked `M` that the run started from: the functions
of `done` were processed in between. -/
structure AfterOthers (o : Options) (P : Optimizers) (I : InlineRuns) (R M : Module)
    (done : List String) (N : Module) : Prop where
  declarations : (linkRuntime N R).declarations = (linkRuntime M R).declarations
  code : SameCode done (linkRuntime M R) (linkRuntime N R)
  attrs : ∀ n, n ∉ helperFunctions o.ModuleName → n ∉ done →
    (linkRuntime N R).attrsOf n = (linkRuntime M R).attrsOf n
  not_both : ∀ n, ∀ a ∈ (linkRuntime N R).attrsOf n, .noInline ∈ a → .alwaysInline ∉ a
  plain : ∀ n ∈ done, PlainTarget o.ModuleName R M n ∧ PlainTarget o.ModuleName R N n
  alone : ∀ F ∈ done, ∃ K, deobfuscateFunction o P I R M F = .ok K ∧
    SameAt (linkRuntime M R).declarations F K N

namespace AfterOthers

variable {o : Options} {P : Optimizers} {I : InlineRuns} {R M N N' : Module} {done : List String}
  {F : String}

theorem nil (hR : AttributeLegal R) (hM : AttributeLegal M) : AfterOthers o P I R M [] M where
  declarations := rfl
  code _ _ := rfl
  attrs _ _ _ := rfl
  not_both n a ha := (attributeLegal_linkRuntime hR hM n a ha).not_both
  plain := by simp
  alone := by simp

theorem isSome_bodyOf (h : AfterOthers o P I R M done N) (hF : F ∉ done) (hR : R.bodyOf F = none) :
    (N.bodyOf F).isSome = (M.bodyOf F).isSome := by
  have hlinked := h.code.isSome_bodyOf hF
  rwa [bodyOf_linkRuntime, bodyOf_linkRuntime, hR, Option.none_or, Option.none_or] at hlinked

/-- Where the processing of `F` starts, nothing that it reads differs. -/
theorem readyFor (h : AfterOthers o P I R M done N) (hF : F ∉ done)
    (hplain : PlainTarget o.ModuleName R M F) (hR : R.bodyOf F = none)
    (hM : (M.bodyOf F).isSome = true) :
    SameAt (linkRuntime M R).declarations F (readyFor o R F M) (readyFor o R F N) ∧
      SameInlinees (readyFor o R F M) (readyFor o R F N) := by
  have hR' : (R.bodyOf F).isNone = true := by simp [hR]
  have hN : (N.bodyOf F).isSome = true := (h.isSome_bodyOf hF hR).trans hM
  have hcode (g : String) (hg : g ∉ done) :
      ((Squanchy.readyFor o R F M).bodyOf g).map (·.code.unmark) =
        ((Squanchy.readyFor o R F N).bodyOf g).map (·.code.unmark) := by
    rw [← sameCode_readyFor g List.not_mem_nil, ← sameCode_readyFor g List.not_mem_nil, h.code g hg]
  have hdone (g : String) (hg : g ∈ done) : ¬(Squanchy.readyFor o R F M).Marked g ∧
      ¬(Squanchy.readyFor o R F N).Marked g := by
    obtain ⟨hgM, hgN⟩ := h.plain g hg
    rw [marked_readyFor hR' hM, marked_readyFor hR' hN]
    constructor
    · rintro ⟨a, ha, hhelper | hmark⟩
      · exact hgM.1 hhelper
      · exact hgM.2 a ha hmark
    · rintro ⟨a, ha, hhelper | hmark⟩
      · exact hgN.1 hhelper
      · exact hgN.2 a ha hmark
  have hattrs : (Squanchy.readyFor o R F M).attrsOf F = (Squanchy.readyFor o R F N).attrsOf F := by
    rw [attrsOf_readyFor hR' hM, attrsOf_readyFor hR' hN, h.attrs F hplain.1 hF]
  have hsame : SameAt (linkRuntime M R).declarations F (Squanchy.readyFor o R F M)
      (Squanchy.readyFor o R F N) :=
    ⟨declarations_readyFor, declarations_readyFor.trans h.declarations, hattrs, hcode F hF⟩
  refine ⟨hsame, fun g => ?_, fun g _ => congrFun hsame.functionType g,
    fun g hg => hcode g fun hd => (hdone g hd).1 hg⟩
  · by_cases hd : g ∈ done
    · exact iff_of_false (hdone g hd).1 (hdone g hd).2
    · rw [marked_readyFor hR' hM, marked_readyFor hR' hN]
      by_cases hg : g ∈ helperFunctions o.ModuleName
      · -- it is marked in both if it is there
        have hfound := congrArg (fun D : Module => (D.getFunction g).isSome) h.declarations
        simp only [Module.getFunction_declarations, Option.isSome_map] at hfound
        simp only [hg, true_or, and_true, Module.attrsOf, Option.mem_def]
        rw [← Option.isSome_iff_exists, ← Option.isSome_iff_exists, Option.isSome_map,
          Option.isSome_map, hfound]
      · rw [h.attrs g hg hd]

theorem prepareFunction (h : AfterOthers o P I R M done N) (hF : F ∉ done)
    (hplain : PlainTarget o.ModuleName R M F) (hR : R.bodyOf F = none) :
    Parallel (SameAt (linkRuntime M R).declarations F) (prepareFunction o I R M F)
      (prepareFunction o I R N F) := by
  cases hb : M.bodyOf F with
  | none =>
    have hb' : N.bodyOf F = none := by
      have := h.isSome_bodyOf hF hR
      rwa [hb, Option.isSome_none, Option.isSome_eq_false_iff, Option.isNone_iff_eq_none] at this
    rw [prepareFunction_of_bodyOf_eq_none hb, prepareFunction_of_bodyOf_eq_none hb']
    exact .error _
  | some b =>
    obtain ⟨hsame, hinlinees⟩ := h.readyFor hF hplain hR (by simp [hb])
    obtain ⟨b', hb'⟩ := Option.isSome_iff_exists.mp
      ((h.isSome_bodyOf hF hR).trans (by simp [hb]))
    obtain ⟨f, hf, hfb⟩ := Option.bind_eq_some_iff.mp hb
    obtain ⟨f', hf', hfb'⟩ := Option.bind_eq_some_iff.mp hb'
    have hparams : f.params = f'.params := by
      have hdecl := congrArg (fun D : Module => D.getFunction F) h.declarations
      simp only [Module.getFunction_declarations, getFunction_linkRuntime, hR, hf, hf'] at hdecl
      have hdecl : f'.declaration = f.declaration := by simpa using hdecl
      exact (Function.mk.inj hdecl).2.1.symm
    have hready (N : Module) : setFunctionsAlwayInline o.ModuleName
        (linkRuntime (removeOptNone F N) R) = Squanchy.readyFor o R F N := rfl
    unfold Squanchy.prepareFunction
    simp only [hready, hf, hf']
    refine Parallel.bind (R := fun g g' => g = f ∧ g' = f') (.ok ⟨rfl, rfl⟩) ?_
    rintro _ _ ⟨rfl, rfl⟩
    rw [hfb, hfb']
    refine (Parallel.ok (R := fun _ _ => True) trivial).bind fun _ _ _ => ?_
    refine (parallel_require (by rw [hparams])).bind fun _ _ _ => ?_
    refine (parallel_require Iff.rfl).bind fun _ _ _ => ?_
    generalize Squanchy.readyFor o R F M = M₁ at hsame hinlinees ⊢
    generalize Squanchy.readyFor o R F N = N₁ at hsame hinlinees ⊢
    refine (SameAt.whenSet o.InjectInitializer ⟨hsame, hinlinees⟩
      (hsame.injectInitializer hinlinees o.ModuleName)).bind ?_
    rintro _ _ ⟨hsame, hinlinees⟩
    refine (hsame.inlineFunctions hinlinees (I.schedule F) (I.succeeds F) I.fuel _).bind
      fun _ _ hsame => ?_
    exact parallel_pure hsame.removeCallASMSideEffects.setNoInline

/-- The processing of `F` goes as it does alone. -/
theorem deobfuscateFunction (h : AfterOthers o P I R M done N) (hP : P.Local) (hF : F ∉ done)
    (hplain : PlainTarget o.ModuleName R M F) (hR : R.bodyOf F = none) :
    Parallel (SameAt (linkRuntime M R).declarations F) (deobfuscateFunction o P I R M F)
      (deobfuscateFunction o P I R N F) :=
  (h.prepareFunction hF hplain hR).bind fun _ _ hsame => hsame.optimizeAndReplace hP o

/-- Neither `F` nor a helper: the clean-up finds nothing to do. -/
theorem attrsOf_of_ne (h : AfterOthers o P I R M done N)
    (hN' : Squanchy.deobfuscateFunction o P I R N F = .ok N') {n : String}
    (hn : n ∉ helperFunctions o.ModuleName) (hnF : n ≠ F) :
    N'.attrsOf n = (linkRuntime N R).attrsOf n := by
  rw [attrsOf_step hN']
  cases ha : (linkRuntime N R).attrsOf n with
  | none => rfl
  | some a =>
    simp only [Option.map_some, hn, hnF, decide_false]
    exact congrArg some (attrsAfter_of_not_both (h.not_both n a ha))

theorem attrsOf_link_of_ne (h : AfterOthers o P I R M done N)
    (hN' : Squanchy.deobfuscateFunction o P I R N F = .ok N') {n : String}
    (hn : n ∉ helperFunctions o.ModuleName) (hnF : n ≠ F) :
    (linkRuntime N' R).attrsOf n = (linkRuntime N R).attrsOf n := by
  rw [attrsOf_link_step hN', ← attrsOf_step hN', h.attrsOf_of_ne hN' hn hnF, ite_self]

/-- One listed function more. -/
theorem step (h : AfterOthers o P I R M done N) (hP : P.Local) (hRnd : R.globalValues.Nodup)
    (hF : F ∉ done) (hplain : PlainTarget o.ModuleName R M F)
    (hN' : Squanchy.deobfuscateFunction o P I R N F = .ok N') :
    AfterOthers o P I R M (F :: done) N' := by
  obtain ⟨K, hK, hsame⟩ :=
    (h.deobfuscateFunction hP hF hplain (runtime_bodyOf_of_ok hN')).of_ok_right hN'
  have hcode : SameCode [F] (linkRuntime N R) N' := .deobfuscateFunction hN'
  have hcode' : SameCode (F :: done) (linkRuntime M R) N' :=
    (h.code.mono (by simp)).trans (hcode.mono (by simp))
  have hplainN : PlainTarget o.ModuleName R N F :=
    ⟨hplain.1, by rw [h.attrs F hplain.1 hF]; exact hplain.2⟩
  refine ⟨?_, hcode'.relink fun g b hb => ?_, fun n hn hnd => ?_, fun n a ha => ?_, fun n hn => ?_,
    fun G hG => ?_⟩
  · -- the second link brings nothing new
    rw [declarations_linkRuntime, hsame.right, ← declarations_linkRuntime, linkRuntime_idem hRnd]
  · rw [bodyOf_linkRuntime, hb, Option.some_or]
  · obtain ⟨hnF, hnd⟩ := not_or.mp fun h => hnd (List.mem_cons.mpr h)
    rw [h.attrsOf_link_of_ne hN' hn hnF, h.attrs n hn hnd]
  · rw [attrsOf_link_step hN'] at ha
    split at ha
    · exact h.not_both n a ha
    · obtain ⟨a₀, _, rfl⟩ := Option.map_eq_some_iff.mp ha
      simp only [noInline_mem_attrsAfter, alwaysInline_mem_attrsAfter]
      grind
  · rcases List.mem_cons.mp hn with rfl | hn
    · exact ⟨hplain, plainTarget_step hplainN hN'⟩
    · exact ⟨(h.plain n hn).1, plainTarget_step (h.plain n hn).2 hN'⟩
  · rcases List.mem_cons.mp hG with rfl | hG
    · exact ⟨K, hK, hsame⟩
    · obtain ⟨K', hK', hsame'⟩ := h.alone G hG
      have hGF : G ≠ F := fun hGF => hF (hGF ▸ hG)
      have hRG : R.bodyOf G = none := runtime_bodyOf_of_ok hK'
      -- linking leaves `G` alone, and so does the processing of `F`
      obtain ⟨a, ha, -⟩ := (processed_self (h.plain G hG).1 hK').outOfLine
      have hlinked : (linkRuntime N R).attrsOf G = some a := by
        rw [attrsOf_linkRuntime, hRG, ← hsame'.attrs, ha]
        rfl
      refine ⟨K', hK', hsame'.left, hsame.right, ?_, ?_⟩
      · rw [ha, h.attrsOf_of_ne hN' (h.plain G hG).1.1 hGF, hlinked]
      · rw [hsame'.code, ← hcode G (by simpa using hGF), bodyOf_linkRuntime, hRG, Option.none_or]

/-- A whole list goes through if and only if each function of it goes through alone. -/
theorem exists_ok_iff (h : AfterOthers o P I R M done N) (hP : P.Local)
    (hRnd : R.globalValues.Nodup) {names : List String} (hnd : (names ++ done).Nodup)
    (hplain : ∀ F ∈ names, PlainTarget o.ModuleName R M F) :
    (∃ N', deobfuscateFunctions o P I R N names = .ok N') ↔
      ∀ F ∈ names, ∃ K, Squanchy.deobfuscateFunction o P I R M F = .ok K := by
  induction names generalizing N done with
  | nil => simp [deobfuscateFunctions]
  | cons F names ih =>
    have hFd : F ∉ done := fun hd => (List.nodup_cons.mp hnd).1 (List.mem_append_right _ hd)
    obtain ⟨hplainF, hplain⟩ := List.forall_mem_cons.mp hplain
    have hrest {N₁ : Module} (hN₁ : Squanchy.deobfuscateFunction o P I R N F = .ok N₁) :=
      ih (h.step hP hRnd hFd hplainF hN₁) (List.perm_middle.symm.nodup hnd) hplain
    have hsame (hR : R.bodyOf F = none) := h.deobfuscateFunction hP hFd hplainF hR
    simp only [deobfuscateFunctions, List.foldlM_cons, bind_eq_ok, List.forall_mem_cons]
    constructor
    · rintro ⟨N', N₁, hN₁, hN'⟩
      obtain ⟨K, hK, -⟩ := (hsame (runtime_bodyOf_of_ok hN₁)).of_ok_right hN₁
      exact ⟨⟨K, hK⟩, (hrest hN₁).mp ⟨N', hN'⟩⟩
    · rintro ⟨⟨K, hK⟩, hall⟩
      obtain ⟨N₁, hN₁, -⟩ := (hsame (runtime_bodyOf_of_ok hK)).of_ok hK
      obtain ⟨N', hN'⟩ := (hrest hN₁).mpr hall
      exact ⟨N', N₁, hN₁, hN'⟩

theorem run (h : AfterOthers o P I R M done N) (hP : P.Local) (hRnd : R.globalValues.Nodup)
    {names : List String} (hnd : (names ++ done).Nodup)
    (hplain : ∀ F ∈ names, PlainTarget o.ModuleName R M F)
    (hN' : deobfuscateFunctions o P I R N names = .ok N') :
    ∃ done', (∀ F, F ∈ done' ↔ F ∈ names ∨ F ∈ done) ∧ AfterOthers o P I R M done' N' := by
  induction names generalizing N done with
  | nil =>
    obtain rfl : N = N' := by simpa [deobfuscateFunctions] using hN'
    exact ⟨done, by simp, h⟩
  | cons F names ih =>
    simp only [deobfuscateFunctions, List.foldlM_cons, bind_eq_ok] at hN'
    obtain ⟨N₁, hN₁, hrest⟩ := hN'
    have hF : F ∉ done := fun hd => (List.nodup_cons.mp hnd).1 (List.mem_append_right _ hd)
    obtain ⟨hplainF, hplain⟩ := List.forall_mem_cons.mp hplain
    obtain ⟨done', hmem, h'⟩ := ih (h.step hP hRnd hF hplainF hN₁)
      (List.perm_middle.symm.nodup hnd) hplain hrest
    refine ⟨done', fun G => ?_, h'⟩
    rw [hmem, List.mem_cons, List.mem_cons, or_left_comm, or_assoc]

end AfterOthers

/-! ## Two functions, one of which calls the other -/

def pairModule : Module :=
  { guardedModule with
    functions := guardedModule.functions ++ [
      { name := "w2c_squanchy_f1", params := [.ptr], retTy := .int 32,
        body := some
          { entry := "entry"
            code :=
              .instr (.call { dst := some 0,
                              functionType := { params := [.ptr], retTy := .int 32 },
                              callee := .func "w2c_squanchy_f0", args := [.arg 0 0] }) <|
              .instr (.term (.ret (some (.reg 0 0)))) .stop
            closed := rfl } }] }

def pairNames : List String := ["w2c_squanchy_f0", "w2c_squanchy_f1"]

def pairModuleAfter : Module :=
  (deobfuscateFunctions {} .off (plainRuns 4) trapRuntime pairModule pairNames).toOption.getD
    pairModule

theorem attributeLegal_pair : AttributeLegal trapRuntime ∧ AttributeLegal pairModule :=
  ⟨attributeLegal_of_forall (by decide), attributeLegal_of_forall (by decide)⟩

theorem plainTarget_pair : ∀ F ∈ pairNames, PlainTarget "squanchy" trapRuntime pairModule F := by
  have hattrs : ∀ F ∈ pairNames, F ∉ helperFunctions "squanchy" ∧
      (linkRuntime pairModule trapRuntime).attrsOf F = some ∅ := by decide +kernel
  intro F hF
  obtain ⟨hhelper, hnone⟩ := hattrs F hF
  refine ⟨hhelper, fun a ha => ?_⟩
  rw [hnone] at ha
  obtain rfl := Option.some.inj ha
  simp

/-! ## The theorems -/

section Theorems

variable {o : Options} {P : Optimizers} {I : InlineRuns} {R M M' : Module}
  {names names' : List String}

/-- Each listed function comes out of the run as it does alone, up to the marks of calls, and the
run goes through if each of them does alone. -/
theorem deobfuscateFunctions_alone (hP : P.Local) (hRnd : R.globalValues.Nodup)
    (hR : AttributeLegal R) (hM : AttributeLegal M) (hnd : names.Nodup)
    (hplain : ∀ F ∈ names, PlainTarget o.ModuleName R M F) :
    ((∃ M', deobfuscateFunctions o P I R M names = .ok M') ↔
        ∀ F ∈ names, ∃ K, deobfuscateFunction o P I R M F = .ok K) ∧
      ∀ M', deobfuscateFunctions o P I R M names = .ok M' →
        ∀ F ∈ names, ∃ K, deobfuscateFunction o P I R M F = .ok K ∧
          SameAt (linkRuntime M R).declarations F K M' := by
  have hstart : AfterOthers o P I R M [] M := .nil hR hM
  have hnd' : (names ++ []).Nodup := by rwa [List.append_nil]
  refine ⟨hstart.exists_ok_iff hP hRnd hnd' hplain, fun M' hM' F hF => ?_⟩
  obtain ⟨done, hdone, hrun⟩ := hstart.run hP hRnd hnd' hplain hM'
  exact hrun.alone F ((hdone F).mpr (.inl hF))

theorem deobfuscateFunctions_alone_pair :
    ((∃ M', deobfuscateFunctions {} .off (plainRuns 4) trapRuntime pairModule pairNames = .ok M') ↔
        ∀ F ∈ pairNames, ∃ K,
          deobfuscateFunction {} .off (plainRuns 4) trapRuntime pairModule F = .ok K) ∧
      ∀ M', deobfuscateFunctions {} .off (plainRuns 4) trapRuntime pairModule pairNames = .ok M' →
        ∀ F ∈ pairNames, ∃ K,
          deobfuscateFunction {} .off (plainRuns 4) trapRuntime pairModule F = .ok K ∧
            SameAt (linkRuntime pairModule trapRuntime).declarations F K M' :=
  deobfuscateFunctions_alone Optimizers.off_local (by decide) attributeLegal_pair.1
    attributeLegal_pair.2 (by decide) plainTarget_pair

/-- The same module but for the marks of calls. -/
def Module.Same (M M' : Module) : Prop := ∀ g, SameAt M.declarations g M M'

theorem SameAt.refl (M : Module) (g : String) : SameAt M.declarations g M M := ⟨rfl, rfl, rfl, rfl⟩

/-- The attributes of a function that is not listed depend on the length of the list alone. -/
theorem attrsOf_deobfuscateFunctions {g : String} (hg : g ∉ names)
    (hM' : deobfuscateFunctions o P I R M names = .ok M') :
    M'.attrsOf g = (fun a : Option (Finset Attribute) =>
      (if (R.bodyOf g).isSome then R.attrsOf g
        else a.or (if R.refersTo (· == .func g) then R.attrsOf g else none)).map
          (attrsAfter (g ∈ helperFunctions o.ModuleName) false))^[names.length] (M.attrsOf g) := by
  induction names generalizing M with
  | nil =>
    obtain rfl : M = M' := by simpa [deobfuscateFunctions] using hM'
    rfl
  | cons F names ih =>
    simp only [deobfuscateFunctions, List.foldlM_cons, bind_eq_ok] at hM'
    obtain ⟨M₁, hM₁, hrest⟩ := hM'
    obtain ⟨hgF, hg⟩ := not_or.mp fun h => hg (List.mem_cons.mpr h)
    rw [ih hg hrest, List.length_cons, Function.iterate_succ_apply, attrsOf_step hM₁,
      attrsOf_linkRuntime]
    simp only [hgF, decide_false, if_false]

/-- The same module but for the order of its symbols, for those that stand apart and for the marks
of calls. -/
structure Module.SameUpToOrder (M M' : Module) : Prop where
  declarations : M.declarations.Reordered M'.declarations
  attrs : ∀ g, M.attrsOf g = M'.attrsOf g
  code : SameCode [] M M'

theorem Module.Same.upToOrder {M M' : Module} (h : M.Same M') : M.SameUpToOrder M' where
  declarations := (h "").right ▸ .refl _
  attrs g := (h g).attrs
  code g _ := (h g).code

/-- The order of the list does not matter. -/
theorem deobfuscateFunctions_perm (hP : P.Local) (hRnd : R.globalValues.Nodup)
    (hR : AttributeLegal R) (hM : AttributeLegal M) (hnd : names.Nodup)
    (hplain : ∀ F ∈ names, PlainTarget o.ModuleName R M F) (hperm : names.Perm names')
    (hM' : deobfuscateFunctions o P I R M names = .ok M') :
    ∃ M'', deobfuscateFunctions o P I R M names' = .ok M'' ∧ M'.SameUpToOrder M'' := by
  have hstart : AfterOthers o P I R M [] M := .nil hR hM
  have hnd' : (names ++ []).Nodup := by rwa [List.append_nil]
  have hnd'' : (names' ++ []).Nodup := by rwa [List.append_nil, ← hperm.nodup_iff]
  have hplain' : ∀ F ∈ names', PlainTarget o.ModuleName R M F :=
    fun F hF => hplain F (hperm.mem_iff.mpr hF)
  obtain ⟨M'', hM''⟩ := (hstart.exists_ok_iff hP hRnd hnd'' hplain').mpr fun F hF =>
    (hstart.exists_ok_iff hP hRnd hnd' hplain).mp ⟨M', hM'⟩ F (hperm.mem_iff.mpr hF)
  refine ⟨M'', hM'', Module.Same.upToOrder ?_⟩
  obtain ⟨done, hdone, hrun⟩ := hstart.run hP hRnd hnd' hplain hM'
  obtain ⟨done', hdone', hrun'⟩ := hstart.run hP hRnd hnd'' hplain' hM''
  -- both agree with the run on one function
  have hlisted (F : String) (hF : F ∈ names) :
      SameAt (linkRuntime M R).declarations F M' M'' := by
    obtain ⟨K, hK, hsame⟩ := hrun.alone F ((hdone F).mpr (.inl hF))
    obtain ⟨K', hK', hsame'⟩ := hrun'.alone F ((hdone' F).mpr (.inl (hperm.mem_iff.mp hF)))
    obtain rfl := Except.ok.inj (hK.symm.trans hK')
    exact ⟨hsame.right, hsame'.right, hsame.attrs.symm.trans hsame'.attrs,
      hsame.code.symm.trans hsame'.code⟩
  by_cases hne : names = []
  · subst hne
    obtain rfl := hperm.nil_eq
    obtain rfl := Except.ok.inj (hM'.symm.trans hM'')
    exact SameAt.refl M'
  · obtain ⟨F, hF⟩ := List.exists_mem_of_ne_nil names hne
    obtain ⟨hleft, hright, -, -⟩ := hlisted F hF
    have hne' : names' ≠ [] := List.ne_nil_of_mem (hperm.mem_iff.mp hF)
    intro g
    rw [hleft]
    by_cases hg : g ∈ names
    · exact hlisted g hg
    · have hg' : g ∉ names' := fun h => hg (hperm.mem_iff.mpr h)
      refine ⟨hleft, hright, ?_, ?_⟩
      · rw [attrsOf_deobfuscateFunctions hg hM', attrsOf_deobfuscateFunctions hg' hM'',
          hperm.length_eq]
      · rw [← sameCode_deobfuscateFunctions hne hM' g hg,
          sameCode_deobfuscateFunctions hne' hM'' g hg']

theorem deobfuscateFunctions_perm_pair :
    ∃ M'', deobfuscateFunctions {} .off (plainRuns 4) trapRuntime pairModule
        ["w2c_squanchy_f1", "w2c_squanchy_f0"] = .ok M'' ∧
          pairModuleAfter.SameUpToOrder M'' :=
  deobfuscateFunctions_perm Optimizers.off_local (by decide) attributeLegal_pair.1
    attributeLegal_pair.2 (by decide) plainTarget_pair (.swap _ _ [])
    (ok_getD (by decide +kernel) _)

end Theorems

end Squanchy
