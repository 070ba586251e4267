import Squanchy.Deobfuscator.Function

/-!
# Function attributes over a run of the tool

LLVM's verifier rules out functions that are both `NoInline` and `AlwaysInline`, and asks
every `OptimizeNone` function to be `NoInline`. The steps of `deobfuscateFunction` act on
the attributes of each function on its own, so a call is described by one function on
attribute sets. Its clean-up is where legality and the target's `NoInline` are lost: it
takes `NoInline` away together with `AlwaysInline`.
-/

namespace Squanchy

open Library

/-! ## Attributes by name -/

def Module.attrsOf (M : Module) (n : String) : Option (Finset Attribute) :=
  (M.getFunction n).map (·.attrs)

/-- The verifier's rules for one function. -/
structure AttributesLegal (a : Finset Attribute) : Prop where
  not_both : .noInline ∈ a → .alwaysInline ∉ a
  optNone_noInline : .optimizeNone ∈ a → .noInline ∈ a

/-- No function breaks the verifier's rules. -/
def AttributeLegal (M : Module) : Prop := ∀ n, ∀ a ∈ M.attrsOf n, AttributesLegal a

/-- What a call does to the attributes of one function, which may be a helper and may be the
target. -/
def attrsAfter (helper target : Bool) (a : Finset Attribute) : Finset Attribute :=
  let a := if helper then insert .alwaysInline a else a
  let a := if target then insert .noInline a else a
  if .noInline ∈ a ∧ .alwaysInline ∈ a then (a.erase .noInline).erase .alwaysInline else a

theorem noInline_mem_attrsAfter {helper target : Bool} {a : Finset Attribute} :
    .noInline ∈ attrsAfter helper target a ↔
      (target = true ∨ .noInline ∈ a) ∧ helper = false ∧ .alwaysInline ∉ a := by
  unfold attrsAfter
  cases helper <;> cases target <;> by_cases h : Attribute.noInline ∈ a <;>
    by_cases h' : Attribute.alwaysInline ∈ a <;> simp [h, h']

theorem alwaysInline_mem_attrsAfter {helper target : Bool} {a : Finset Attribute} :
    .alwaysInline ∈ attrsAfter helper target a ↔
      (helper = true ∨ .alwaysInline ∈ a) ∧ target = false ∧ .noInline ∉ a := by
  unfold attrsAfter
  cases helper <;> cases target <;> by_cases h : Attribute.noInline ∈ a <;>
    by_cases h' : Attribute.alwaysInline ∈ a <;> simp [h, h']

theorem optimizeNone_mem_attrsAfter {helper target : Bool} {a : Finset Attribute} :
    .optimizeNone ∈ attrsAfter helper target a ↔ .optimizeNone ∈ a := by
  unfold attrsAfter
  cases helper <;> cases target <;> by_cases h : Attribute.noInline ∈ a <;>
    by_cases h' : Attribute.alwaysInline ∈ a <;> simp [h, h']

/-! ## What each step does to them -/

theorem attrsOf_modify (M : Module) (name : String) (f : Function → Function)
    (hname : ∀ g, (f g).name = g.name) (t : Finset Attribute → Finset Attribute)
    (hf : ∀ g, (f g).attrs = t g.attrs) (n : String) :
    (M.modify name f).attrsOf n = (M.attrsOf n).map (if n = name then t else id) := by
  rw [Module.attrsOf, Module.getFunction_modify M name f hname, Module.attrsOf]
  by_cases hn : n = name
  · simp only [hn, if_true, Option.map_map]
    exact congrArg (Option.map · _) (funext hf)
  · simp [hn]

theorem attrsOf_mapFunctions (M : Module) (f : Function → Function)
    (hname : ∀ g, (f g).name = g.name) (t : Finset Attribute → Finset Attribute)
    (hf : ∀ g, (f g).attrs = t g.attrs) (n : String) :
    (M.mapFunctions f).attrsOf n = (M.attrsOf n).map t := by
  rw [Module.attrsOf, Module.getFunction_mapFunctions hname, Module.attrsOf, Option.map_map,
    Option.map_map]
  exact congrArg (Option.map · _) (funext hf)

theorem attrsOf_modify_of_eq (M : Module) (name : String) (f : Function → Function)
    (hname : ∀ g, (f g).name = g.name) (hf : ∀ g, (f g).attrs = g.attrs) (n : String) :
    (M.modify name f).attrsOf n = M.attrsOf n := by
  rw [attrsOf_modify M name f hname id hf]
  split <;> exact Option.map_id_apply ..

theorem attrsOf_setBody (M : Module) (F : String) (b : Body) (n : String) :
    (M.setBody F b).attrsOf n = M.attrsOf n :=
  attrsOf_modify_of_eq M F (fun f => { f with body := some b }) (fun _ => rfl) (fun _ => rfl) n

theorem attrsOf_linkRuntime (M R : Module) (n : String) :
    (linkRuntime M R).attrsOf n =
      if (R.bodyOf n).isSome then R.attrsOf n
      else (M.attrsOf n).or (if R.refersTo (· == .func n) then R.attrsOf n else none) := by
  rw [Module.attrsOf, getFunction_linkRuntime]
  split
  · rfl
  · rw [Option.map_or]
    split <;> rfl

theorem attrsOf_setFunctionAlwayInline (name : String) (M : Module) (n : String) :
    (setFunctionAlwayInline name M).attrsOf n =
      (M.attrsOf n).map (if n = name then insert .alwaysInline else id) := by
  unfold setFunctionAlwayInline
  split
  · rename_i hnone
    by_cases hn : n = name
    · simp [Module.attrsOf, hn, hnone]
    · simp [hn]
  · rename_i F hF
    split
    · rename_i hattr
      by_cases hn : n = name
      · have hmem : Attribute.alwaysInline ∈ F.attrs := by
          simpa [Function.hasFnAttribute] using hattr
        simp [Module.attrsOf, hn, hF, Finset.insert_eq_of_mem hmem]
      · simp [hn]
    · rw [attrsOf_mapFunctions _ (·.markUses name) (fun _ => rfl) id fun _ => rfl,
        attrsOf_modify M name (·.addFnAttr .alwaysInline) (fun _ => rfl)
          (insert .alwaysInline) fun _ => rfl]
      simp

theorem attrsOf_setFunctionsAlwayInline (N : String) (M : Module) (n : String) :
    (setFunctionsAlwayInline N M).attrsOf n =
      (M.attrsOf n).map (if n ∈ helperFunctions N then insert .alwaysInline else id) := by
  unfold setFunctionsAlwayInline
  induction helperFunctions N generalizing M with
  | nil => simp
  | cons name names ih =>
    rw [List.foldl_cons, ih, attrsOf_setFunctionAlwayInline, Option.map_map]
    refine congrArg (Option.map · _) (funext fun a => ?_)
    by_cases hn : n = name <;> by_cases hmem : n ∈ names <;> simp [hn, hmem] <;> grind

theorem attrsOf_setNoInline (F : String) (M : Module) (n : String) :
    (setNoInline F M).attrsOf n = (M.attrsOf n).map (attrsAfter false (n = F)) := by
  have hdrop (f : Function) : f.dropInlining.attrs = attrsAfter false false f.attrs := by
    unfold Function.dropInlining attrsAfter
    by_cases h : Attribute.noInline ∈ f.attrs <;> by_cases h' : Attribute.alwaysInline ∈ f.attrs <;>
      simp [Function.hasFnAttribute, Function.removeFnAttr, h, h']
  have hname (f : Function) : f.dropInlining.name = f.name := by
    unfold Function.dropInlining
    split <;> rfl
  rw [setNoInline, attrsOf_mapFunctions _ _ hname _ hdrop,
    attrsOf_modify M F (·.addFnAttr .noInline) (fun _ => rfl) (insert .noInline) fun _ => rfl,
    Option.map_map]
  refine congrArg (Option.map · _) (funext fun a => ?_)
  by_cases hn : n = F <;> simp [attrsAfter, hn]

theorem attrsOf_injectInitializer {N F : String} {M M' : Module}
    (h : injectInitializer N M F = .ok M') (n : String) : M'.attrsOf n = M.attrsOf n := by
  obtain ⟨b, _, _, _, _, _, rfl⟩ := injectInitializer_ok h
  exact attrsOf_setBody M F _ n

theorem attrsOf_inlineFunctions {s : Schedule} {succeeds : Nat → Path → Bool} {M M' : Module}
    {F : String} {fuel : Nat} (h : inlineFunctions s succeeds M F fuel = some M') (n : String) :
    M'.attrsOf n = M.attrsOf n := by
  unfold inlineFunctions at h
  split at h
  · obtain rfl := Option.some.inj h
    rfl
  · obtain ⟨b, _, rfl⟩ := Option.map_eq_some_iff.mp h
    exact attrsOf_setBody M F b n

theorem attrsOf_runOn {P : FunctionPass} {F : String} {M M' : Module}
    (h : runOn P F M = .ok M') (n : String) : M'.attrsOf n = M.attrsOf n := by
  simp only [runOn, bind_eq_ok, orThrow_eq_ok, pure_eq_ok] at h
  obtain ⟨_, _, r, _, rfl⟩ := h
  exact attrsOf_setBody M F r.body n

theorem attrsOf_replaceInstanceRefs {F : String} {M M' : Module}
    (h : replaceInstanceRefs F M = .ok M') (n : String) : M'.attrsOf n = M.attrsOf n := by
  simp only [replaceInstanceRefs, replaceRefsTo, bind_eq_ok, orThrow_eq_ok, pure_eq_ok] at h
  obtain ⟨_, _, _, _, rfl⟩ := h
  exact attrsOf_modify_of_eq M F
    (·.replaceInstanceRefs M "w2c_squanchy_") (fun _ => rfl)
    (fun _ => rfl) n

theorem attrsOf_replaceFUNCREF_TABLE {F : String} {M M' : Module}
    (h : replaceFUNCREF_TABLE F M = .ok M') (n : String) : M'.attrsOf n = M.attrsOf n := by
  unfold replaceFUNCREF_TABLE at h
  split at h
  · cases h
    rfl
  · simp only [bind_eq_ok, orThrow_eq_ok, pure_eq_ok] at h
    obtain ⟨_, _, _, _, rfl⟩ := h
    exact attrsOf_modify_of_eq M F
      (fun f => { f with body := f.body.map (·.eraseInstrs Instr.usesFuncRefTable) })
      (fun _ => rfl) (fun _ => rfl) n

/-- Steps 8 to 12 leave the attributes alone. -/
theorem attrsOf_optimizeAndReplace {o : Options} {P : Optimizers} {F : String} {M M' : Module}
    (h : optimizeAndReplace o P M F = .ok M') (n : String) : M'.attrsOf n = M.attrsOf n := by
  simp only [optimizeAndReplace, bind_eq_ok] at h
  obtain ⟨M₁, h₁, M₂, h₂, M₃, h₃, M₄, h₄, M₅, h₅, h₆⟩ := h
  have hrefs : M₄.attrsOf n = M₃.attrsOf n := by
    unfold whenSet at h₄
    split at h₄
    · obtain ⟨N, hN, hN'⟩ := bind_eq_ok.mp h₄
      rw [attrsOf_runOn hN', attrsOf_replaceInstanceRefs hN]
    · cases h₄
      rfl
  rw [attrsOf_runOn h₆, attrsOf_replaceFUNCREF_TABLE h₅, hrefs, attrsOf_runOn h₃,
    attrsOf_runOn h₂, attrsOf_runOn h₁]

/-- All that a call does to attributes: `OptimizeNone` leaves the target, the runtime's
functions come in, and each function is marked and cleaned up on its own. -/
theorem attrsOf_deobfuscateFunction {o : Options} {P : Optimizers} {I : InlineRuns}
    {R M M' : Module} {F : String} (h : deobfuscateFunction o P I R M F = .ok M') (n : String) :
    (R.bodyOf F).isNone = true ∧ (M.bodyOf F).isSome = true ∧
      M'.attrsOf n = ((linkRuntime (removeOptNone F M) R).attrsOf n).map
        (attrsAfter (n ∈ helperFunctions o.ModuleName) (n = F)) := by
  simp only [deobfuscateFunction, prepareFunction, bind_eq_ok, orThrow_eq_ok, require_eq_ok,
    pure_eq_ok] at h
  obtain ⟨_, ⟨f, hf, b, hb, _, _, _, hR, M₁, h₁, M₂, h₂, rfl⟩, h₃⟩ := h
  refine ⟨hR, by simp [Module.bodyOf, hf, hb], ?_⟩
  have hinject : M₁.attrsOf n = (setFunctionsAlwayInline o.ModuleName
      (linkRuntime (removeOptNone F M) R)).attrsOf n := by
    unfold whenSet at h₁
    split at h₁
    · exact attrsOf_injectInitializer h₁ n
    · rw [Except.ok.inj h₁]
  have hasm : (removeCallASMSideEffects F M₂).attrsOf n = M₂.attrsOf n :=
    attrsOf_modify_of_eq M₂ F
      (fun f => { f with body := f.body.map (·.eraseInstrs Instr.isAsmCall) }) (fun _ => rfl)
      (fun _ => rfl) n
  rw [attrsOf_optimizeAndReplace h₃, attrsOf_setNoInline, hasm, attrsOf_inlineFunctions h₂,
    hinject, attrsOf_setFunctionsAlwayInline, Option.map_map]
  refine congrArg (Option.map · _) (funext fun a => ?_)
  by_cases hn : n ∈ helperFunctions o.ModuleName <;> simp [attrsAfter, hn]

/-! ## Runs over the list of targets -/

/-- The function is there and is `NoInline`. -/
def Module.StaysOutOfLine (M : Module) (F : String) : Prop :=
  ∃ a, M.attrsOf F = some a ∧ .noInline ∈ a

/-- After each call the module is legal, and the functions processed so far are `NoInline`. -/
def StaysLegal (o : Options) (P : Optimizers) (I : InlineRuns) (R M : Module)
    (FunctionNames : List String) : Prop :=
  ∀ k M', deobfuscateFunctions o P I R M (FunctionNames.take k) = .ok M' →
    AttributeLegal M' ∧ ∀ F ∈ FunctionNames.take k, M'.StaysOutOfLine F

/-- No helper of the linked module is `OptimizeNone`, as long as anything is processed. -/
def HelpersOptimized (N : String) (R M : Module) : Prop :=
  ∀ n ∈ helperFunctions N, ∀ a ∈ (linkRuntime M R).attrsOf n, .optimizeNone ∉ a

/-- The target is not a helper, and nothing has marked it `AlwaysInline`. -/
def PlainTarget (N : String) (R M : Module) (F : String) : Prop :=
  F ∉ helperFunctions N ∧ ∀ a ∈ (linkRuntime M R).attrsOf F, .alwaysInline ∉ a

theorem attributeLegal_linkRuntime {R M : Module} (hR : AttributeLegal R)
    (hM : AttributeLegal M) : AttributeLegal (linkRuntime M R) := by
  intro n a ha
  rw [attrsOf_linkRuntime] at ha
  split at ha
  · exact hR n a ha
  · rcases Option.or_eq_some_iff.mp ha with h | ⟨_, h⟩
    · exact hM n a h
    · split at h
      · exact hR n a h
      · cases h

/-- `OptimizeNone` leaves the target before the runtime comes in, which does not define it. -/
theorem attrsOf_link_removeOptNone {R M : Module} {F : String} (hF : (R.bodyOf F).isNone = true)
    (hFM : (M.bodyOf F).isSome = true) (n : String) :
    (linkRuntime (removeOptNone F M) R).attrsOf n =
      ((linkRuntime M R).attrsOf n).map
        (if n = F then (·.erase .optimizeNone) else id) := by
  have hF' : (R.bodyOf F).isSome = false := by
    cases h : R.bodyOf F <;> grind
  rw [attrsOf_linkRuntime, attrsOf_linkRuntime, removeOptNone,
    attrsOf_modify M F (·.removeFnAttr .optimizeNone) (fun _ => rfl) (·.erase .optimizeNone)
      fun _ => rfl]
  by_cases hn : n = F
  · subst hn
    obtain ⟨f, hf, _⟩ := Option.bind_eq_some_iff.mp (Option.isSome_iff_exists.mp hFM).choose_spec
    simp [hF', Module.attrsOf, hf]
  · simp [hn]

section Step

variable {o : Options} {P : Optimizers} {I : InlineRuns} {R M M' : Module} {F : String}

/-- The attributes of a function after a call, by what they were in the linked module. -/
theorem attrsOf_step (h : deobfuscateFunction o P I R M F = .ok M') (n : String) :
    M'.attrsOf n = ((linkRuntime M R).attrsOf n).map fun a =>
      attrsAfter (n ∈ helperFunctions o.ModuleName) (n = F)
        (if n = F then a.erase .optimizeNone else a) := by
  obtain ⟨hR, hM, hattrs⟩ := attrsOf_deobfuscateFunction h n
  rw [hattrs, attrsOf_link_removeOptNone hR hM, Option.map_map]
  refine congrArg (Option.map · _) (funext fun a => ?_)
  by_cases hn : n = F <;> simp [hn]

/-- A legal function ends a call legal unless it is an `OptimizeNone` helper. -/
theorem attributesLegal_step (helper target : Bool) {a : Finset Attribute}
    (ha : AttributesLegal a) (hopt : helper = true → .optimizeNone ∉ a) :
    AttributesLegal (attrsAfter helper target
      (if target then a.erase .optimizeNone else a)) := by
  obtain ⟨hboth, hnone⟩ := ha
  cases target <;> cases helper <;> constructor <;>
    simp only [noInline_mem_attrsAfter, alwaysInline_mem_attrsAfter,
      optimizeNone_mem_attrsAfter] <;> grind

/-- Linking again brings the runtime's own functions back as they were. -/
theorem attrsOf_link_step (h : deobfuscateFunction o P I R M F = .ok M') (n : String) :
    (linkRuntime M' R).attrsOf n =
      if (R.bodyOf n).isSome then (linkRuntime M R).attrsOf n
      else ((linkRuntime M R).attrsOf n).map fun a =>
        attrsAfter (n ∈ helperFunctions o.ModuleName) (n = F)
          (if n = F then a.erase .optimizeNone else a) := by
  by_cases hn : (R.bodyOf n).isSome = true
  · simp [attrsOf_linkRuntime, hn]
  · have hstep := attrsOf_step h n
    rw [attrsOf_linkRuntime, if_neg hn, if_neg hn, hstep]
    cases ha : (linkRuntime M R).attrsOf n with
    | some a => simp
    | none =>
      rw [attrsOf_linkRuntime, if_neg hn] at ha
      simpa using (Option.or_eq_none_iff.mp ha).2

theorem attributeLegal_step (hR : AttributeLegal R) (hM : AttributeLegal M)
    (hhelp : HelpersOptimized o.ModuleName R M)
    (h : deobfuscateFunction o P I R M F = .ok M') : AttributeLegal M' := by
  intro n a' ha'
  rw [attrsOf_step h n] at ha'
  obtain ⟨a, ha, rfl⟩ := Option.map_eq_some_iff.mp ha'
  have := attributesLegal_step (n ∈ helperFunctions o.ModuleName) (n = F)
    (attributeLegal_linkRuntime hR hM n a ha) (fun hn => hhelp n (by simpa using hn) a ha)
  simpa using this

theorem helpersOptimized_step (hhelp : HelpersOptimized o.ModuleName R M)
    (h : deobfuscateFunction o P I R M F = .ok M') : HelpersOptimized o.ModuleName R M' := by
  intro n hn a' ha'
  rw [attrsOf_link_step h n] at ha'
  split at ha'
  · exact hhelp n hn a' ha'
  · obtain ⟨a, ha, rfl⟩ := Option.map_eq_some_iff.mp ha'
    rw [optimizeNone_mem_attrsAfter]
    split
    · simp
    · exact hhelp n hn a ha

theorem plainTarget_step {G : String} (hG : PlainTarget o.ModuleName R M G)
    (h : deobfuscateFunction o P I R M F = .ok M') : PlainTarget o.ModuleName R M' G := by
  refine ⟨hG.1, fun a' ha' => ?_⟩
  rw [attrsOf_link_step h G] at ha'
  split at ha'
  · exact hG.2 a' ha'
  · obtain ⟨a, ha, rfl⟩ := Option.map_eq_some_iff.mp ha'
    have := hG.2 a ha
    rw [alwaysInline_mem_attrsAfter]
    split <;> simp [hG.1, this]

/-- What a target that was processed before keeps through a call. -/
structure Processed (N : String) (R M : Module) (G : String) : Prop where
  plain : PlainTarget N R M G
  notRuntime : (R.bodyOf G).isNone = true
  outOfLine : M.StaysOutOfLine G

/-- A plain target ends its own call `NoInline`. -/
theorem processed_self (hF : PlainTarget o.ModuleName R M F)
    (h : deobfuscateFunction o P I R M F = .ok M') : Processed o.ModuleName R M' F := by
  obtain ⟨hR, hM, _⟩ := attrsOf_deobfuscateFunction h F
  refine ⟨plainTarget_step hF h, hR, ?_⟩
  obtain ⟨f, hf, _⟩ := Option.bind_eq_some_iff.mp (Option.isSome_iff_exists.mp hM).choose_spec
  have hlink : (linkRuntime M R).attrsOf F = some f.attrs := by
    have hattrs : M.attrsOf F = some f.attrs := by rw [Module.attrsOf, hf, Option.map_some]
    rw [attrsOf_linkRuntime, if_neg (by simpa using hR), hattrs, Option.some_or]
  refine ⟨_, by rw [attrsOf_step h F, hlink, Option.map_some], ?_⟩
  rw [noInline_mem_attrsAfter]
  simp [hF.1, hF.2 _ hlink]

/-- The calls for other targets leave it `NoInline`. -/
theorem processed_step {G : String} (hG : Processed o.ModuleName R M G)
    (h : deobfuscateFunction o P I R M F = .ok M') : Processed o.ModuleName R M' G := by
  obtain ⟨hplain, hR, a, ha, hmem⟩ := hG
  refine ⟨plainTarget_step hplain h, hR, ?_⟩
  have hlink : (linkRuntime M R).attrsOf G = some a := by
    cases hb : R.bodyOf G <;> grind [attrsOf_linkRuntime]
  refine ⟨_, by rw [attrsOf_step h G, hlink, Option.map_some], ?_⟩
  rw [noInline_mem_attrsAfter]
  split <;> simp [hplain.1, hplain.2 a hlink, hmem]

end Step

/-! ## The theorem -/

section Runs

variable {o : Options} {P : Optimizers} {I : InlineRuns} {R : Module}

/-- Runs over plain targets: every call keeps the module legal and the targets out of line. -/
theorem staysLegal_of_plain {names : List String} (done : List String) {M : Module}
    (hR : AttributeLegal R) (hM : AttributeLegal M)
    (hhelp : names ≠ [] → HelpersOptimized o.ModuleName R M)
    (hnames : ∀ F ∈ names, PlainTarget o.ModuleName R M F)
    (hdone : ∀ F ∈ done, Processed o.ModuleName R M F) {k : Nat} {M' : Module}
    (h : deobfuscateFunctions o P I R M (names.take k) = .ok M') :
    AttributeLegal M' ∧ ∀ F ∈ done ++ names.take k, M'.StaysOutOfLine F := by
  induction names generalizing M done k with
  | nil =>
    obtain rfl : M = M' := by simpa [deobfuscateFunctions] using h
    exact ⟨hM, fun F hF => (hdone F (by simpa using hF)).outOfLine⟩
  | cons F names ih =>
    cases k with
    | zero =>
      obtain rfl : M = M' := by simpa [deobfuscateFunctions] using h
      exact ⟨hM, fun G hG => (hdone G (by simpa using hG)).outOfLine⟩
    | succ k =>
      simp only [deobfuscateFunctions, List.take_succ_cons, List.foldlM_cons, bind_eq_ok] at h
      obtain ⟨M₁, h₁, hrest⟩ := h
      have hhelp := hhelp (by simp)
      have hkeep := ih (done ++ [F]) (attributeLegal_step hR hM hhelp h₁)
        (fun _ => helpersOptimized_step hhelp h₁)
        (fun G hG => plainTarget_step (hnames G (by simp [hG])) h₁) ?_ hrest
      · simpa using hkeep
      · intro G hG
        rcases List.mem_append.mp hG with hG | hG
        · exact processed_step (hdone G hG) h₁
        · obtain rfl : G = F := by simpa using hG
          exact processed_self (hnames G (by simp)) h₁

/-- The first call already tells whether its target was plain and the helpers optimized. -/
theorem plain_of_step {F : String} {M M' : Module}
    (h : deobfuscateFunction o P I R M F = .ok M')
    (hlegal : AttributeLegal M') (hout : M'.StaysOutOfLine F) :
    PlainTarget o.ModuleName R M F ∧ HelpersOptimized o.ModuleName R M := by
  have hplain : PlainTarget o.ModuleName R M F := by
    obtain ⟨a', ha', hmem⟩ := hout
    rw [attrsOf_step h F] at ha'
    obtain ⟨a, ha, rfl⟩ := Option.map_eq_some_iff.mp ha'
    obtain ⟨_, hhelper, hai⟩ := noInline_mem_attrsAfter.mp hmem
    refine ⟨by simpa using hhelper, fun b hb => ?_⟩
    obtain rfl : a = b := Option.some.inj (ha.symm.trans hb)
    simpa using hai
  refine ⟨hplain, fun n hn a ha hopt => ?_⟩
  have hne : n ≠ F := fun h => hplain.1 (h ▸ hn)
  -- an `OptimizeNone` helper is `NoInline`, and loses that with its mark
  have hafter := hlegal n _ (by rw [attrsOf_step h n, Option.mem_def, ha, Option.map_some])
  have hnone := hafter.optNone_noInline (by simpa [optimizeNone_mem_attrsAfter, hne] using hopt)
  simp [noInline_mem_attrsAfter, hn] at hnone

/-- A target of a later call was plain from the start. -/
theorem plainTarget_of_later {F G : String} {M M' : Module} (hR : AttributeLegal R)
    (hM : AttributeLegal M) (h : deobfuscateFunction o P I R M F = .ok M') (hne : G ≠ F)
    (hG : PlainTarget o.ModuleName R M' G) : PlainTarget o.ModuleName R M G := by
  refine ⟨hG.1, fun a ha hai => ?_⟩
  have hni : .noInline ∉ a := fun hni =>
    (attributeLegal_linkRuntime hR hM G a ha).not_both hni hai
  have hafter : a ∈ (linkRuntime M' R).attrsOf G ∨
      attrsAfter false false a ∈ (linkRuntime M' R).attrsOf G := by
    rw [attrsOf_link_step h G]
    split
    · exact .inl ha
    · refine .inr ?_
      rw [Option.mem_def.mp ha]
      simp [hG.1, hne]
  rcases hafter with hafter | hafter
  · exact hG.2 a hafter hai
  · refine hG.2 _ hafter ?_
    simp [alwaysInline_mem_attrsAfter, hai, hni]

/-- Over a run that completes, the module stays legal and the targets stay out of line after
each call if and only if no helper of the linked module is `OptimizeNone` and no target is a
helper or `AlwaysInline`. -/
theorem staysLegal_iff {names : List String} {M M' : Module} (hR : AttributeLegal R)
    (hM : AttributeLegal M) (hrun : deobfuscateFunctions o P I R M names = .ok M') :
    StaysLegal o P I R M names ↔
      (names ≠ [] → HelpersOptimized o.ModuleName R M) ∧
        ∀ F ∈ names, PlainTarget o.ModuleName R M F := by
  constructor
  · intro hkeep
    induction names generalizing M with
    | nil => simp
    | cons F names ih =>
      simp only [deobfuscateFunctions, List.foldlM_cons, bind_eq_ok] at hrun
      obtain ⟨M₁, h₁, hrest⟩ := hrun
      have hone : deobfuscateFunctions o P I R M ((F :: names).take 1) = .ok M₁ := by
        simp [deobfuscateFunctions, h₁]
      obtain ⟨hlegal, hout⟩ := hkeep 1 M₁ hone
      obtain ⟨hF, hhelp⟩ := plain_of_step h₁ hlegal (hout F (by simp))
      have htail : StaysLegal o P I R M₁ names := by
        intro k M₂ h₂
        obtain ⟨hl, ho⟩ := hkeep (k + 1) M₂ (by
          simp only [deobfuscateFunctions, List.take_succ_cons, List.foldlM_cons, bind_eq_ok]
          exact ⟨M₁, h₁, h₂⟩)
        exact ⟨hl, fun G hG => ho G (by simp [hG])⟩
      refine ⟨fun _ => hhelp, ?_⟩
      intro G hG
      by_cases hGF : G = F
      · exact hGF ▸ hF
      · have hG' := (ih hlegal hrest htail).2 G ((List.mem_cons.mp hG).resolve_left hGF)
        exact plainTarget_of_later hR hM h₁ hGF hG'
  · rintro ⟨hhelp, hnames⟩ k M₁ h₁
    simpa using staysLegal_of_plain [] hR hM hhelp hnames (by simp) h₁

end Runs

/-! ## A helper compiled by `clang -O0` -/

/-- Function attributes stay legal and the targets stay out of line, whatever legal modules
and targets the tool is given. -/
def AttributesStayLegal : Prop :=
  ∀ (o : Options) (P : Optimizers) (I : InlineRuns) (R M M' : Module) (names : List String),
    AttributeLegal R → AttributeLegal M → deobfuscateFunctions o P I R M names = .ok M' →
    StaysLegal o P I R M names

instance (a : Finset Attribute) : Decidable (AttributesLegal a) :=
  decidable_of_iff ((.noInline ∈ a → .alwaysInline ∉ a) ∧ (.optimizeNone ∈ a → .noInline ∈ a))
    ⟨fun h => ⟨h.1, h.2⟩, fun h => ⟨h.1, h.2⟩⟩

theorem attributeLegal_of_forall {M : Module}
    (h : ∀ f ∈ M.functions, AttributesLegal f.attrs) : AttributeLegal M := by
  intro n a ha
  obtain ⟨f, hf, rfl⟩ := Option.map_eq_some_iff.mp ha
  exact h f (List.mem_of_find?_eq_some hf)

/-- A target and its instantiate function, both with the given attributes. -/
def attributeModule (helper target : Finset Attribute) : Module where
  functions := [
    { name := "wasm2c_squanchy_instantiate", params := [.ptr, .ptr], attrs := helper,
      body := some returnBody },
    { name := "w2c_squanchy_f0", params := [.ptr], attrs := target, body := some returnBody }]
  structTypes := ["struct.w2c_squanchy", "struct.w2c_env"]

def emptyModule : Module := { functions := [] }

/-- The run of the tool on one target of such a module. -/
def attributeRun (helper target : Finset Attribute) : Except Abort Module :=
  deobfuscateFunctions {} .off (plainRuns 3) emptyModule (attributeModule helper target)
    ["w2c_squanchy_f0"]

/-- The instantiate function of a `clang -O0` module is `NoInline` and `OptimizeNone`, and
is left with `OptimizeNone` alone. -/
theorem optNone_helper_becomes_illegal : ¬ AttributesStayLegal := by
  intro hall
  let clangO0 : Finset Attribute := {.noInline, .optimizeNone}
  obtain ⟨M', hM'⟩ := ok_of_isOk (show (attributeRun clangO0 clangO0).isOk = true by
    decide +kernel)
  have hstay := hall {} .off (plainRuns 3) emptyModule (attributeModule clangO0 clangO0) M' _
    (attributeLegal_of_forall (by simp [emptyModule]))
    (attributeLegal_of_forall (by decide)) hM'
  have hlegal := (hstay 1 M' hM').1 "wasm2c_squanchy_instantiate" {.optimizeNone} (by
    have hattrs : (attributeRun clangO0 clangO0).map (·.attrsOf "wasm2c_squanchy_instantiate") =
        .ok (some {.optimizeNone}) := by decide +kernel
    rw [hM'] at hattrs
    exact Except.ok.inj hattrs)
  exact absurd hlegal (by decide)

/-- A module with a plain helper, where both sides hold. -/
theorem staysLegal_iff_plain_helper :
    ∃ M', attributeRun ∅ {.noInline, .optimizeNone} = .ok M' ∧
      (StaysLegal {} .off (plainRuns 3) emptyModule (attributeModule ∅ {.noInline, .optimizeNone})
          ["w2c_squanchy_f0"] ↔
        (["w2c_squanchy_f0"] ≠ [] → HelpersOptimized "squanchy" emptyModule
          (attributeModule ∅ {.noInline, .optimizeNone})) ∧
        ∀ F ∈ ["w2c_squanchy_f0"], PlainTarget "squanchy" emptyModule
          (attributeModule ∅ {.noInline, .optimizeNone}) F) := by
  obtain ⟨M', hM'⟩ := ok_of_isOk
    (show (attributeRun ∅ {.noInline, .optimizeNone}).isOk = true by decide +kernel)
  exact ⟨M', hM', staysLegal_iff (attributeLegal_of_forall (by simp [emptyModule]))
    (attributeLegal_of_forall (by decide)) hM'⟩

end Squanchy
