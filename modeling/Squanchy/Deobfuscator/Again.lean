import Squanchy.Deobfuscator.Independent
import Squanchy.Inline.Termination

/-!
# The tool on its own output

With the optimizers off, a listed function comes out of a run in a normal form: it calls no
function that would be inlined, has no inline assembly, passes the instance of its caller where
that was asked for, and does not store with the function table. Processing others leaves it in
that form, and there is nothing to do for a function that has it. So a second run over any of the
listed functions, in any order, that injects no further instance keeps the declarations and, but
for the marks on calls, the code. Where no helper is `NoInline` and no target `AlwaysInline` to
begin with, it keeps the attributes as well.
-/

namespace Squanchy

open Library

/-! ## Code in which nothing is left to do -/

theorem Instr.unmark_unmark (i : Instr) : i.unmark.unmark = i.unmark := by
  cases i <;> rfl

namespace Code

variable {c : Code} {P Q : Nat → Instr → Prop}

theorem unmark_unmark (c : Code) : c.unmark.unmark = c.unmark := by
  induction c with
  | stop => rfl
  | label l k ih => simp only [unmark, ih]
  | instr i k ih => simp only [unmark, Instr.unmark_unmark, ih]
  | inlined dst args b k ihb ihk => simp only [unmark, ihb, ihk]

/-- Every instruction is as in `P`, which also speaks of the number of scopes around it. -/
def Each (P : Nat → Instr → Prop) (c : Code) : Prop := ∀ x ∈ c.instrs 0, P x.1 x.2

theorem Each.mono (h : c.Each P) (hPQ : ∀ d i, P d i → Q d i) : c.Each Q :=
  fun x hx => hPQ x.1 x.2 (h x hx)

theorem Each.eraseInstrs (h : c.Each P) (p : Instr → Bool) :
    (c.eraseInstrs p).Each fun d i => P d i ∧ p i = false := by
  intro x hx
  rw [instrs_eraseInstrs, List.mem_filter] at hx
  exact ⟨h x hx.1, by simpa using hx.2⟩

theorem Each.unmark_mapInstrs {f : Nat → Instr → Instr} {g : Nat → Operand → Operand}
    (h : c.Each P) (hf : ∀ d i, P d i → Q d (f d i).unmark) :
    (c.mapInstrs f g 0).unmark.Each Q := by
  intro x hx
  rw [instrs_unmark, instrs_mapInstrs, List.map_map] at hx
  obtain ⟨y, hy, rfl⟩ := List.mem_map.mp hx
  exact hf y.1 y.2 (h y hy)

theorem eraseInstrs_eq_self {p : Instr → Bool} (h : ∀ x ∈ c.instrs 0, p x.2 = false) :
    c.eraseInstrs p = c :=
  (eraseInstrs_congr 0 h).trans c.eraseInstrs_none

/-- The calls that are collected, among all instructions. -/
theorem callSites_eq_nil {q : CallBase → Bool} {d : Nat} :
    c.callSites q = [] ↔ ∀ x ∈ c.instrs d, ∀ call, x.2 = .call call → q call = false := by
  induction c generalizing d with
  | stop => simp [callSites, instrs]
  | label l k ih => simp only [callSites, instrs, List.map_eq_nil_iff, ih (d := d)]
  | instr i k ih =>
    cases i <;> simp [callSites, instrs, List.map_eq_nil_iff, ih (d := d), -Prod.forall]
  | inlined dst args b k ihb ihk =>
    simp only [callSites, instrs, List.append_eq_nil_iff, List.map_eq_nil_iff,
      List.forall_mem_append, ihb (d := d + 1), ihk (d := d)]

end Code

/-- The function that a plain call calls directly. -/
def Instr.plainCallee (M : Module) : Instr → Option String
  | .call c => if c.isCallInst then c.getCalledFunction M else none
  | _ => none

theorem Instr.plainCallee_congr {M M' : Module} (h : M.functionType = M'.functionType) (i : Instr) :
    i.plainCallee M = i.plainCallee M' := by
  cases i with
  | call c =>
    rw [plainCallee, plainCallee, CallBase.getCalledFunction_congr fun g _ => congrFun h g]
  | _ => rfl

theorem CallBase.inlinable_eq_false {M : Module} {c : CallBase} :
    c.inlinable M = false ↔ ∀ g ∈ (Instr.call c).plainCallee M, ¬M.Inlinee g := by
  rw [← Bool.not_eq_true, inlinable_iff]
  cases hc : c.isCallInst <;> simp [Instr.plainCallee, hc]

section Instance

variable {M : Module} {start : String} {d : Nat} {i : Instr}

theorem Instr.plainCallee_unmark (i : Instr) : i.unmark.plainCallee M = i.plainCallee M := by
  cases i <;> rfl

/-- A call that receives another instance calls the same function, or loses its callee. -/
theorem Instr.mem_plainCallee_of_replaceInstanceRef {g : String}
    (h : g ∈ (i.replaceInstanceRef M start d).plainCallee M) : g ∈ i.plainCallee M := by
  cases i with
  | call c =>
    simp only [replaceInstanceRef] at h
    split at h
    · cases hargs : c.args <;>
        simp_all [CallBase.setArgOperand0, plainCallee, CallBase.getCalledFunction,
          CallBase.namedCallee, CallBase.isCallInst]
    · exact h
  | _ => exact h

theorem Instr.isAsmCall_of_replaceInstanceRef (h : i.isAsmCall = false) :
    (i.replaceInstanceRef M start d).isAsmCall = false := by
  cases i with
  | call c =>
    simp only [replaceInstanceRef]
    split
    · cases hargs : c.args <;>
        simp_all [CallBase.setArgOperand0, isAsmCall, CallBase.isInlineAsm, CallBase.isCallInst]
    · exact h
  | _ => exact h

theorem Instr.replaceInstanceRef_idem (M : Module) (start : String) (d : Nat) (i : Instr) :
    (i.replaceInstanceRef M start d).unmark.replaceInstanceRef M start d =
      (i.replaceInstanceRef M start d).unmark := by
  cases i with
  | call c =>
    have hset (c : CallBase) (h : c.setArgOperand0 (.arg d 0) = c) :
        (Instr.call c).replaceInstanceRef M start d = .call c := by
      simp only [replaceInstanceRef, h, ite_self]
    by_cases hc : c.callsPrefixed M start = true
    · simp only [replaceInstanceRef, hc, if_true, unmark]
      refine hset _ ?_
      cases hargs : c.args <;> simp [CallBase.setArgOperand0, hargs]
    · have hc' : ({ c with alwaysInline := false } : CallBase).callsPrefixed M start ≠ true := hc
      simp only [replaceInstanceRef, if_neg hc, unmark, if_neg hc']
  | _ => rfl

end Instance

theorem Instr.usesFuncRefTable_of_twice {i : Instr} (h : i.usesFuncRefTableTwice = true) :
    i.usesFuncRefTable = true := by
  unfold usesFuncRefTableTwice at h
  split at h
  · simp_all [usesFuncRefTable]
  · cases h

/-- There is nothing to do at the instruction: calls of `X` are inlined, instance references may
be replaced, and the module, with the declarations `D`, may have a function table. -/
structure Instr.Settled (D : Module) (refs table : Bool) (X : String → Prop) (d : Nat)
    (i : Instr) : Prop where
  notInlined : ∀ g ∈ i.plainCallee D, ¬X g
  notAsm : i.isAsmCall = false
  instanceRef : refs = true → i.replaceInstanceRef D "w2c_squanchy_" d = i
  notStore : table = true → i.usesFuncRefTable = false

theorem Instr.Settled.mono {D : Module} {refs table : Bool} {X Y : String → Prop} {d : Nat}
    {i : Instr} (h : i.Settled D refs table X d) (hXY : ∀ g, Y g → X g) :
    i.Settled D refs table Y d :=
  ⟨fun g hg hY => h.notInlined g hg (hXY g hY), h.notAsm, h.instanceRef, h.notStore⟩

/-! Every step after inlining maps such code to itself. -/

section Fixed

variable {D : Module} {refs table : Bool} {X : String → Prop} {c : Code}

theorem eraseInstrs_isAsmCall_of_settled (h : c.Each (Instr.Settled D refs table X)) :
    c.eraseInstrs Instr.isAsmCall = c :=
  Code.eraseInstrs_eq_self fun x hx => (h x hx).notAsm

theorem replaceInstanceRef_of_settled (h : c.Each (Instr.Settled D refs table X))
    (hrefs : refs = true) :
    c.mapInstrs (Instr.replaceInstanceRef D "w2c_squanchy_") (fun _ o => o) 0 = c :=
  Code.mapInstrs_eq_self.mpr fun x hx => (h x hx).instanceRef hrefs

theorem eraseInstrs_usesFuncRefTable_of_settled (h : c.Each (Instr.Settled D refs table X))
    (htable : table = true) : c.eraseInstrs Instr.usesFuncRefTable = c :=
  Code.eraseInstrs_eq_self fun x hx => (h x hx).notStore htable

end Fixed

/-! ## The steps -/

/-- The module has the declarations `D`, and the code of `F`, up to the marks of calls, is one
of `K`. -/
structure CodeIn (D : Module) (F : String) (K : Code → Prop) (M : Module) : Prop where
  declarations : M.declarations = D
  code : ∃ b, M.bodyOf F = some b ∧ K b.code.unmark

namespace CodeIn

variable {D M M' : Module} {F : String} {K J K' : Code → Prop} {E : Abort → Prop}

theorem getFunction (h : CodeIn D F K M) :
    ∃ f b, M.getFunction F = some f ∧ f.body = some b ∧ K b.code.unmark := by
  obtain ⟨b, hb, hK⟩ := h.code
  obtain ⟨f, hf, hfb⟩ := Option.bind_eq_some_iff.mp hb
  exact ⟨f, b, hf, hfb, hK⟩

theorem functionType (h : CodeIn D F K M) : M.functionType = D.functionType := by
  rw [← h.declarations, M.functionType_declarations]

theorem mono (h : CodeIn D F K M) (hK : ∀ c, K c → K' c) : CodeIn D F K' M := by
  obtain ⟨b, hb, hKb⟩ := h.code
  exact ⟨h.declarations, b, hb, hK _ hKb⟩

theorem params (h : CodeIn D F K M) (hparams : ∀ f ∈ D.getFunction F, f.params ≠ []) {f : Function}
    (hf : M.getFunction F = some f) : f.params ≠ [] :=
  hparams f.declaration (by
    rw [← h.declarations, Module.getFunction_declarations, hf, Option.map_some, Option.mem_def])

theorem getGlobalVariable (h : CodeIn D F K M) (name : String) :
    M.getGlobalVariable name = D.getGlobalVariable name := by
  rw [← h.declarations]
  rfl

theorem sameCode (h : CodeIn D F K M) (hD : M'.declarations = M.declarations)
    (hcode : SameCode [] M M') : CodeIn D F K M' := by
  obtain ⟨b, hb, hK⟩ := h.code
  have hsame := hcode F List.not_mem_nil
  rw [hb, Option.map_some] at hsame
  obtain ⟨b', hb', hcode'⟩ := Option.map_eq_some_iff.mp hsame.symm
  exact ⟨hD.trans h.declarations, b', hb', hcode'.symm ▸ hK⟩

theorem setBody (h : CodeIn D F K M) {b : Body} (hb : K' b.code.unmark) :
    CodeIn D F K' (M.setBody F b) := by
  obtain ⟨f, _, hf, -, -⟩ := h.getFunction
  exact ⟨(Module.declarations_modify (f := fun f => { f with body := some b })
    fun _ => rfl).trans h.declarations, b, Module.bodyOf_setBody_self hf, hb⟩

/-- The body of `F` is rewritten in place, by what looks through marks. -/
theorem mapBody (h : CodeIn D F K M) {t : Body → Body} (u : Code → Code)
    (ht : ∀ b, (t b).code.unmark = u b.code.unmark) (hK : ∀ c, K c → K' (u c)) :
    CodeIn D F K' (M.modify F fun f => { f with body := f.body.map t }) := by
  obtain ⟨f, b, hf, hb, hKb⟩ := h.getFunction
  refine ⟨(Module.declarations_modify (f := fun f => { f with body := f.body.map t })
    fun _ => rfl).trans h.declarations, t b, ?_, ht b ▸ hK _ hKb⟩
  rw [Module.bodyOf, Module.getFunction_modify M F (fun f => { f with body := f.body.map t })
    fun _ => rfl, if_pos rfl, hf]
  simp [hb]

theorem removeCallASMSideEffects (h : CodeIn D F K M)
    (hK : ∀ c, K c → K' (c.eraseInstrs Instr.isAsmCall)) :
    CodeIn D F K' (Squanchy.removeCallASMSideEffects F M) :=
  h.mapBody (·.eraseInstrs Instr.isAsmCall)
    (fun b => Code.unmark_eraseInstrs (fun i => by cases i <;> rfl) b.code) hK

theorem setNoInline (h : CodeIn D F K M) : CodeIn D F K (Squanchy.setNoInline F M) :=
  h.sameCode (declarations_setNoInline F M) (.setNoInline [] F M)

/-- An optimizer that returns at once. -/
theorem runOn (h : CodeIn D F K M) :
    Ends (CodeIn D F K) E (Squanchy.runOn .skip F M) := by
  obtain ⟨b, hb, hK⟩ := h.code
  rw [runOn_skip.mpr ⟨b, hb, rfl⟩]
  exact h.setBody hK

theorem replaceInstanceRefs (h : CodeIn D F K M) (hparams : ∀ f ∈ D.getFunction F, f.params ≠ [])
    (hK : ∀ c, K c →
      K' (c.mapInstrs (Instr.replaceInstanceRef D "w2c_squanchy_") (fun _ o => o) 0).unmark) :
    Ends (CodeIn D F K') E (Squanchy.replaceInstanceRefs F M) := by
  obtain ⟨f, b, hf, -, -⟩ := h.getFunction
  have hp := h.params hparams hf
  rw [← Instr.replaceInstanceRef_congr h.functionType] at hK
  simp only [Squanchy.replaceInstanceRefs, replaceRefsTo_eq hf hp]
  exact h.mapBody
    (fun c => (c.mapInstrs (Instr.replaceInstanceRef M "w2c_squanchy_") (fun _ o => o) 0).unmark)
    (fun b => (Code.unmark_mapInstrs (Instr.unmark_replaceInstanceRef M _) 0 b.code).symm) hK

/-- The step is refused where a store uses the table twice. -/
theorem replaceFUNCREF_TABLE (h : CodeIn D F K M)
    (hnone : D.getGlobalVariable "FUNCREF_TABLE" = none → ∀ c, K c → K' c)
    (hsome : D.getGlobalVariable "FUNCREF_TABLE" ≠ none → ∀ c, K c →
      K' (c.eraseInstrs Instr.usesFuncRefTable))
    (hE : D.getGlobalVariable "FUNCREF_TABLE" ≠ none → ∀ c, K c →
      (∃ x ∈ c.instrs 0, x.2.usesFuncRefTableTwice = true) → ∀ e, E e) :
    Ends (CodeIn D F K') E (Squanchy.replaceFUNCREF_TABLE F M) := by
  unfold Squanchy.replaceFUNCREF_TABLE
  rw [h.getGlobalVariable]
  split
  · rename_i ht
    exact h.mono (hnone ht)
  · rename_i ht
    have ht : D.getGlobalVariable "FUNCREF_TABLE" ≠ none := by simp [ht]
    obtain ⟨f, b, hf, hb, hK⟩ := h.getFunction
    rw [hf]
    refine Ends.bind (Q := fun g => g = f) rfl ?_
    rintro _ rfl
    refine (ends_require fun htwice => ?_).bind fun _ _ => ends_pure ?_
    · simp only [Function.instrs, hb, List.all_eq_true, not_forall, Bool.not_eq_true',
        Bool.not_eq_false] at htwice
      obtain ⟨⟨d, i⟩, hi, htwice⟩ := htwice
      refine hE ht _ hK ⟨(d, i.unmark), ?_, ?_⟩ _
      · exact Code.instrs_unmark 0 b.code ▸ List.mem_map_of_mem hi
      · cases i <;> exact htwice
    · exact h.mapBody (·.eraseInstrs Instr.usesFuncRefTable)
        (fun b => Code.unmark_eraseInstrs (fun i => by cases i <;> rfl) b.code) (hsome ht)

/-- The steps after inlining, with the optimizers off. -/
theorem optimizeAndReplace {o : Options} (h : CodeIn D F K M)
    (hparams : ∀ f ∈ D.getFunction F, f.params ≠ [])
    (hkeep : o.ReplaceInstanceRefs = false → ∀ c, K c → J c)
    (hrefs : o.ReplaceInstanceRefs = true → ∀ c, K c →
      J (c.mapInstrs (Instr.replaceInstanceRef D "w2c_squanchy_") (fun _ o => o) 0).unmark)
    (hnone : D.getGlobalVariable "FUNCREF_TABLE" = none → ∀ c, J c → K' c)
    (hsome : D.getGlobalVariable "FUNCREF_TABLE" ≠ none → ∀ c, J c →
      K' (c.eraseInstrs Instr.usesFuncRefTable))
    (hE : D.getGlobalVariable "FUNCREF_TABLE" ≠ none → ∀ c, J c →
      (∃ x ∈ c.instrs 0, x.2.usesFuncRefTableTwice = true) → ∀ e, E e) :
    Ends (CodeIn D F K') E (Squanchy.optimizeAndReplace o .off M F) := by
  unfold Squanchy.optimizeAndReplace
  refine h.runOn.bind fun _ h => h.runOn.bind fun _ h => h.runOn.bind fun M h => ?_
  have hset : Ends (CodeIn D F J) E (whenSet o.ReplaceInstanceRefs
      (fun M => Squanchy.replaceInstanceRefs F M >>=
        Squanchy.runOn Optimizers.off.optimizeFunction F) M) := by
    unfold whenSet
    split
    · rename_i ho
      exact (h.replaceInstanceRefs hparams (hrefs ho)).bind fun _ h => h.runOn
    · rename_i ho
      exact h.mono (hkeep (by simpa using ho))
  refine hset.bind fun _ h => ?_
  exact (h.replaceFUNCREF_TABLE hnone hsome hE).bind fun _ h => h.runOn

/-- When the loop ends, no call of an inlinee is left. -/
theorem inlineFunctions {s : Schedule} {succeeds : Nat → Path → Bool} {fuel : Nat}
    (h : CodeIn D F K M) (hM' : Squanchy.inlineFunctions s succeeds M F fuel = some M') :
    CodeIn D F (Code.Each fun _ i => ∀ g ∈ i.plainCallee D, ¬M.Inlinee g) M' := by
  obtain ⟨b, hb, -⟩ := h.code
  simp only [Squanchy.inlineFunctions, hb] at hM'
  obtain ⟨b', hloop, rfl⟩ := Option.map_eq_some_iff.mp hM'
  refine h.setBody fun x hx g hg => ?_
  rw [← Instr.plainCallee_congr h.functionType] at hg
  have hsites : b'.code.unmark.callSites (·.inlinable M) = [] := by
    rw [callSites_unmark fun _ => rfl]
    exact callSites_eq_nil_iff.mpr (inlineLoop_result hloop).1
  obtain ⟨d, i⟩ := x
  cases i with
  | call c => exact CallBase.inlinable_eq_false.mp (Code.callSites_eq_nil.mp hsites _ hx c rfl) g hg
  | _ => cases hg

/-- Where no call of an inlinee is left, one round is enough. -/
theorem inlineFunctions_done (h : CodeIn D F K M) (s : Schedule) (succeeds : Nat → Path → Bool)
    {fuel : Nat} (hfuel : 0 < fuel)
    (hK : ∀ c, K c → c.Each fun _ i => ∀ g ∈ i.plainCallee D, ¬M.Inlinee g) :
    ∃ M', Squanchy.inlineFunctions s succeeds M F fuel = some M' ∧ CodeIn D F K M' := by
  obtain ⟨b, hb, hKb⟩ := h.code
  refine ⟨M.setBody F b, ?_, h.setBody hKb⟩
  have hsites : b.code.callSites (·.inlinable M) = [] := by
    rw [← callSites_unmark fun _ => rfl]
    refine (Code.callSites_eq_nil (d := 0)).mpr fun x hx call hcall => ?_
    have hleft : ∀ g ∈ x.2.plainCallee D, ¬M.Inlinee g := hK _ hKb x hx
    rw [← Instr.plainCallee_congr h.functionType, hcall] at hleft
    exact CallBase.inlinable_eq_false.mpr hleft
  have horder : s.order 0 [] = [] := List.perm_nil.mp (s.perm 0 [])
  obtain ⟨n, rfl⟩ : ∃ n, fuel = n + 1 := ⟨fuel - 1, by omega⟩
  simp [Squanchy.inlineFunctions, hb, inlineLoop, hsites, horder, inlineRound]

end CodeIn

/-! ## What the tool has settled -/

section Settled

variable {o : Options} {P : Optimizers} {I : InlineRuns} {R M M' : Module} {F G : String}

/-- Calls of `g` are inlined when a function of the module is processed. -/
def ToInline (N : String) (R M : Module) (g : String) : Prop :=
  (∃ a ∈ (linkRuntime M R).attrsOf g, g ∈ helperFunctions N ∨ .alwaysInline ∈ a) ∧
    ((linkRuntime M R).bodyOf g).isSome = true

theorem inlinee_readyFor (hF : (R.bodyOf F).isNone = true) (hM : (M.bodyOf F).isSome = true)
    (g : String) : (readyFor o R F M).Inlinee g ↔ ToInline o.ModuleName R M g := by
  rw [Module.inlinee_iff, marked_readyFor hF hM, sameCode_readyFor.isSome_bodyOf List.not_mem_nil]
  rfl

/-- What is not inlined at first is not inlined later. -/
theorem ToInline.of_step (h : deobfuscateFunction o P I R M F = .ok M') {g : String}
    (hg : ToInline o.ModuleName R M' g) : ToInline o.ModuleName R M g := by
  obtain ⟨⟨a', ha', hmark⟩, hbody⟩ := hg
  refine ⟨?_, ?_⟩
  · rw [attrsOf_link_step h g] at ha'
    split at ha'
    · exact ⟨a', ha', hmark⟩
    · obtain ⟨a, ha, rfl⟩ := Option.map_eq_some_iff.mp ha'
      refine ⟨a, ha, ?_⟩
      by_cases hhelper : g ∈ helperFunctions o.ModuleName
      · exact .inl hhelper
      · have hmark := (alwaysInline_mem_attrsAfter.mp (hmark.resolve_left hhelper))
        by_cases hgF : g = F <;> simp_all
  · obtain ⟨-, hM, -⟩ := attrsOf_deobfuscateFunction h g
    rw [bodyOf_linkRuntime] at hbody ⊢
    by_cases hgF : g = F
    · subst hgF
      cases hR : R.bodyOf g <;> simp [hM]
    · have hsame := (SameCode.deobfuscateFunction h).isSome_bodyOf (g := g) (by simpa using hgF)
      rw [bodyOf_linkRuntime] at hsame
      cases hR : R.bodyOf g <;> simp_all

/-- The first steps leave no call to inline, and no inline assembly. -/
theorem codeIn_prepareFunction (h : prepareFunction o I R M F = .ok M') :
    R.bodyOf F = none ∧ (∀ f ∈ (linkRuntime M R).declarations.getFunction F, f.params ≠ []) ∧
      CodeIn (linkRuntime M R).declarations F (Code.Each fun _ i =>
        (∀ g ∈ i.plainCallee (linkRuntime M R).declarations, ¬ToInline o.ModuleName R M g) ∧
          i.isAsmCall = false) M' := by
  simp only [prepareFunction, bind_eq_ok, orThrow_eq_ok, require_eq_ok, pure_eq_ok] at h
  obtain ⟨f, hf, b, hb, _, hparams, _, hR, M₁, h₁, M₂, h₂, rfl⟩ := h
  have hM : M.bodyOf F = some b := by simp [Module.bodyOf, hf, hb]
  have hR' : R.bodyOf F = none := Option.isNone_iff_eq_none.mp hR
  have hready : CodeIn (linkRuntime M R).declarations F (fun _ => True) (readyFor o R F M) := by
    have hlinked : ((linkRuntime M R).bodyOf F).isSome = true := by
      simp [bodyOf_linkRuntime, hR', hM]
    rw [← sameCode_readyFor.isSome_bodyOf List.not_mem_nil] at hlinked
    obtain ⟨b', hb'⟩ := Option.isSome_iff_exists.mp hlinked
    exact ⟨declarations_readyFor, b', hb', trivial⟩
  have hinlinee := inlinee_readyFor (o := o) hR (by rw [hM]; rfl)
  have hinject : CodeIn (linkRuntime M R).declarations F (fun _ => True) M₁ ∧
      ∀ g, M₁.Inlinee g ↔ ToInline o.ModuleName R M g := by
    unfold whenSet at h₁
    split at h₁
    · obtain ⟨b₁, _, _, _, hb₁, _, rfl⟩ := injectInitializer_ok h₁
      exact ⟨hready.setBody trivial, fun g =>
        (Module.inlinee_setBody (Option.isSome_of_mem hb₁) g).trans (hinlinee g)⟩
    · obtain rfl := Except.ok.inj h₁
      exact ⟨hready, hinlinee⟩
  refine ⟨hR', fun g hg => ?_, ?_⟩
  · rw [Module.getFunction_declarations, getFunction_linkRuntime, hR', hf] at hg
    obtain rfl : f.declaration = g := by simpa using hg
    exact hparams
  · refine ((hinject.1.inlineFunctions h₂).removeCallASMSideEffects fun c hc => ?_).setNoInline
    refine (hc.eraseInstrs Instr.isAsmCall).mono fun d i hi => ⟨fun g hg hX => ?_, hi.2⟩
    exact hi.1 g hg ((hinject.2 g).mpr hX)

/-- The runtime is linked, and there is nothing left to do for `F`. -/
structure Settled (N : String) (refs : Bool) (R M : Module) (F : String) : Prop where
  declarations : (linkRuntime M R).declarations = M.declarations
  code : SameCode [] M (linkRuntime M R)
  notRuntime : R.bodyOf F = none
  params : ∀ f ∈ M.declarations.getFunction F, f.params ≠ []
  settled : CodeIn M.declarations F (Code.Each (Instr.Settled M.declarations refs
    (M.declarations.getGlobalVariable "FUNCREF_TABLE").isSome (ToInline N R M))) M

/-- The optimizers keep to the function, and so does what is left. -/
theorem codeIn_deobfuscateFunction (h : deobfuscateFunction o .off I R M F = .ok M') :
    CodeIn (linkRuntime M R).declarations F (Code.Each
      (Instr.Settled (linkRuntime M R).declarations o.ReplaceInstanceRefs
        ((linkRuntime M R).declarations.getGlobalVariable "FUNCREF_TABLE").isSome
        (ToInline o.ModuleName R M))) M' := by
  obtain ⟨N, hN, hM'⟩ := bind_eq_ok.mp h
  obtain ⟨-, hparams, hcode⟩ := codeIn_prepareFunction hN
  refine (hcode.optimizeAndReplace (o := o) (E := fun _ => True) hparams
    (J := Code.Each fun d i =>
      ((∀ g ∈ i.plainCallee (linkRuntime M R).declarations, ¬ToInline o.ModuleName R M g) ∧
        i.isAsmCall = false) ∧ (o.ReplaceInstanceRefs = true →
          i.replaceInstanceRef (linkRuntime M R).declarations "w2c_squanchy_" d = i))
    (fun ho c hc => hc.mono fun d i hi => ⟨hi, by simp [ho]⟩) (fun _ c hc => ?_)
    (fun ht c hc => hc.mono fun d i hi => ?_) (fun ht c hc => ?_)
    fun _ _ _ _ _ => trivial).of_ok hM'
  · refine hc.unmark_mapInstrs fun d i hi => ⟨⟨fun g hg => ?_, ?_⟩, fun _ => ?_⟩
    · rw [Instr.plainCallee_unmark] at hg
      exact hi.1 g (Instr.mem_plainCallee_of_replaceInstanceRef hg)
    · rw [Instr.isAsmCall_unmark (Instr.unmark_unmark _)]
      exact Instr.isAsmCall_of_replaceInstanceRef hi.2
    · exact Instr.replaceInstanceRef_idem _ _ d i
  · exact ⟨hi.1.1, hi.1.2, hi.2, by simp [ht]⟩
  · exact (hc.eraseInstrs Instr.usesFuncRefTable).mono fun d i hi =>
      ⟨hi.1.1.1, hi.1.1.2, hi.1.2, fun _ => hi.2⟩

/-- Linking the runtime again changes nothing but attributes. -/
theorem linked_of_step (hRnd : R.globalValues.Nodup)
    (h : deobfuscateFunction o .off I R M F = .ok M') :
    (linkRuntime M' R).declarations = M'.declarations ∧ SameCode [] M' (linkRuntime M' R) := by
  refine ⟨?_, fun g _ => ?_⟩
  · rw [declarations_linkRuntime, (codeIn_deobfuscateFunction h).declarations,
      ← declarations_linkRuntime, linkRuntime_idem hRnd]
  · rw [bodyOf_linkRuntime]
    cases hb : R.bodyOf g with
    | none => rfl
    | some b =>
      have hgF : g ∉ [F] := by
        rintro hgF
        obtain rfl := List.mem_singleton.mp hgF
        cases hb.symm.trans (runtime_bodyOf_of_ok h)
      rw [← SameCode.deobfuscateFunction h g hgF, bodyOf_linkRuntime, hb, Option.some_or,
        Option.some_or]

theorem settled_self (hRnd : R.globalValues.Nodup)
    (h : deobfuscateFunction o .off I R M F = .ok M') :
    Settled o.ModuleName o.ReplaceInstanceRefs R M' F := by
  have hcode := codeIn_deobfuscateFunction h
  obtain ⟨N, hN, -⟩ := bind_eq_ok.mp h
  obtain ⟨hR, hparams, -⟩ := codeIn_prepareFunction hN
  obtain ⟨hdecl, hlinked⟩ := linked_of_step hRnd h
  rw [← hcode.declarations] at hparams hcode
  exact ⟨hdecl, hlinked, hR, hparams, hcode.mono fun c hc => hc.mono fun d i hi =>
    hi.mono fun g => ToInline.of_step h⟩

/-- Processing another function leaves nothing to do for `G`. -/
theorem Settled.step (hG : Settled o.ModuleName o.ReplaceInstanceRefs R M G)
    (hRnd : R.globalValues.Nodup) (hGF : G ≠ F)
    (h : deobfuscateFunction o .off I R M F = .ok M') :
    Settled o.ModuleName o.ReplaceInstanceRefs R M' G := by
  obtain ⟨hdecl, hlinked⟩ := linked_of_step hRnd h
  have hsame : M'.declarations = M.declarations :=
    (codeIn_deobfuscateFunction h).declarations.trans hG.declarations
  have hcode : SameCode [F] M M' :=
    (hG.code.mono (List.nil_subset _)).trans (.deobfuscateFunction h)
  refine ⟨hdecl, hlinked, hG.notRuntime, hsame ▸ hG.params, ?_⟩
  obtain ⟨b, hb, hK⟩ := hG.settled.code
  have hG' := hcode G (by simpa using hGF)
  rw [hb, Option.map_some] at hG'
  obtain ⟨b', hb', hbb'⟩ := Option.map_eq_some_iff.mp hG'.symm
  refine ⟨rfl, b', hb', ?_⟩
  rw [hbb', hsame]
  exact hK.mono fun d i hi => hi.mono fun g => ToInline.of_step h

/-- The first steps find nothing to inline, and no inline assembly. -/
theorem Settled.prepareFunction (hF : Settled o.ModuleName o.ReplaceInstanceRefs R M F)
    (ho : o.InjectInitializer = false) (hfuel : 0 < I.fuel) {f : Function} {b : Body}
    (hf : M.getFunction F = some f) (hb : f.body = some b)
    (hK : b.code.unmark.Each (Instr.Settled M.declarations o.ReplaceInstanceRefs
      (M.declarations.getGlobalVariable "FUNCREF_TABLE").isSome (ToInline o.ModuleName R M))) :
    ∃ N, prepareFunction o I R M F = .ok N ∧ CodeIn M.declarations F (· = b.code.unmark) N := by
  have hbody : M.bodyOf F = some b := by simp [Module.bodyOf, hf, hb]
  have hready : CodeIn M.declarations F (· = b.code.unmark) (readyFor o R F M) :=
    (CodeIn.mk rfl ⟨b, hbody, rfl⟩ : CodeIn M.declarations F (· = b.code.unmark) M).sameCode
      (declarations_readyFor.trans hF.declarations) (hF.code.trans sameCode_readyFor)
  have hinlinee := inlinee_readyFor (o := o) (M := M) (Option.isNone_iff_eq_none.mpr hF.notRuntime)
    (Option.isSome_of_mem hbody)
  obtain ⟨N, hN, hcode⟩ := hready.inlineFunctions_done (I.schedule F) (I.succeeds F) hfuel
    (by
      rintro _ rfl
      exact hK.mono fun d i hi g hg hX => hi.notInlined g hg ((hinlinee g).mp hX))
  refine ⟨setNoInline F (removeCallASMSideEffects F N), ?_,
    (hcode.removeCallASMSideEffects ?_).setNoInline⟩
  · have hparams : f.params ≠ [] := hF.settled.params hF.params hf
    unfold readyFor at hN
    simp [Squanchy.prepareFunction, hf, hb, orThrow, require, whenSet, ho, hparams, hF.notRuntime,
      hN]
  · rintro _ rfl
    exact eraseInstrs_isAsmCall_of_settled hK

/-- The steps after that leave such code alone. -/
theorem CodeIn.optimizeAndReplace_settled {D : Module} {X : String → Prop} {c : Code}
    (h : CodeIn D F (· = c) M) (hparams : ∀ f ∈ D.getFunction F, f.params ≠ [])
    (hc : c.unmark = c) (hK : c.Each (Instr.Settled D o.ReplaceInstanceRefs
      (D.getGlobalVariable "FUNCREF_TABLE").isSome X)) :
    ∃ M', Squanchy.optimizeAndReplace o .off M F = .ok M' ∧ CodeIn D F (· = c) M' := by
  have htable (h : D.getGlobalVariable "FUNCREF_TABLE" ≠ none) :
      (D.getGlobalVariable "FUNCREF_TABLE").isSome = true := Option.isSome_iff_ne_none.mpr h
  refine (h.optimizeAndReplace (J := (· = c)) (E := fun _ => False) hparams (fun _ _ hc => hc) ?_
    (fun _ _ hc => hc) ?_ ?_).exists_ok
  · rintro hrefs _ rfl
    rw [replaceInstanceRef_of_settled hK hrefs, hc]
  · rintro ht _ rfl
    exact eraseInstrs_usesFuncRefTable_of_settled hK (htable ht)
  · rintro ht _ rfl ⟨x, hx, htwice⟩
    have hnot := (hK x hx).notStore (htable ht)
    rw [Instr.usesFuncRefTable_of_twice htwice] at hnot
    cases hnot

/-- A second time, nothing happens to the code of `F` or of any other function. -/
theorem Settled.again (hF : Settled o.ModuleName o.ReplaceInstanceRefs R M F)
    (ho : o.InjectInitializer = false) (hfuel : 0 < I.fuel) :
    ∃ M', deobfuscateFunction o .off I R M F = .ok M' ∧
      M'.declarations = M.declarations ∧ SameCode [] M M' := by
  obtain ⟨f, b, hf, hb, hK⟩ := hF.settled.getFunction
  obtain ⟨N, hN, hcode⟩ := hF.prepareFunction ho hfuel hf hb hK
  obtain ⟨M', hM', hcode⟩ := hcode.optimizeAndReplace_settled hF.params b.code.unmark_unmark hK
  have hrun : deobfuscateFunction o .off I R M F = .ok M' := bind_eq_ok.mpr ⟨N, hN, hM'⟩
  refine ⟨M', hrun, hcode.declarations, fun g _ => ?_⟩
  by_cases hgF : g = F
  · obtain ⟨b', hb', hbb'⟩ := hcode.code
    have hbody : M.bodyOf F = some b := by simp [Module.bodyOf, hf, hb]
    rw [hgF, hbody, hb', Option.map_some, Option.map_some, hbb']
  · exact (hF.code g List.not_mem_nil).trans
      (SameCode.deobfuscateFunction hrun g (by simpa using hgF))

end Settled

/-! ## Attributes -/

section Attributes

variable {N : String} {o : Options} {P : Optimizers} {I : InlineRuns} {R M M' : Module}
  {F G : String}

/-- No helper of the linked module is `NoInline`. -/
def PlainHelpers (N : String) (R M : Module) : Prop :=
  ∀ n ∈ helperFunctions N, ∀ a ∈ (linkRuntime M R).attrsOf n, .noInline ∉ a

theorem plainHelpers_step (hhelp : PlainHelpers o.ModuleName R M)
    (h : deobfuscateFunction o P I R M F = .ok M') : PlainHelpers o.ModuleName R M' := by
  intro n hn a' ha'
  rw [attrsOf_link_step h n] at ha'
  split at ha'
  · exact hhelp n hn a' ha'
  · obtain ⟨a, ha, rfl⟩ := Option.map_eq_some_iff.mp ha'
    simp [noInline_mem_attrsAfter, hn]

theorem attrsAfter_idem {helper : Bool} {a : Finset Attribute}
    (ha : helper = true → .noInline ∉ a) :
    attrsAfter helper false (attrsAfter helper false a) = attrsAfter helper false a := by
  ext x
  cases x <;> simp only [noInline_mem_attrsAfter, alwaysInline_mem_attrsAfter,
    optimizeNone_mem_attrsAfter] <;> grind

/-- What a call makes of a target that is not `AlwaysInline`, no later call changes. -/
theorem attrsAfter_target {a : Finset Attribute} (ha : .alwaysInline ∉ a) (target : Bool) :
    let after := attrsAfter false true (a.erase .optimizeNone)
    attrsAfter false target (if target then after.erase .optimizeNone else after) = after := by
  ext x
  cases target <;> cases x <;> simp [noInline_mem_attrsAfter, alwaysInline_mem_attrsAfter,
    optimizeNone_mem_attrsAfter, ha]

/-- A call, for `F` or for another function, leaves all attributes as they are. -/
def AttrsSettled (N : String) (R M : Module) (F : String) : Prop :=
  ∀ (n : String) (target : Bool), (target = true → n = F) →
    ((linkRuntime M R).attrsOf n).map (fun a => attrsAfter (n ∈ helperFunctions N) target
      (if target then a.erase .optimizeNone else a)) = M.attrsOf n

/-- Attributes are settled or not by themselves. -/
theorem AttrsSettled.congr (hF : AttrsSettled N R M F) (h : ∀ n, M'.attrsOf n = M.attrsOf n) :
    AttrsSettled N R M' F := by
  intro n target hn
  rw [attrsOf_linkRuntime, h, ← attrsOf_linkRuntime]
  exact hF n target hn

theorem AttrsSettled.again (hF : AttrsSettled o.ModuleName R M F)
    (h : deobfuscateFunction o P I R M F = .ok M') (n : String) : M'.attrsOf n = M.attrsOf n := by
  rw [attrsOf_step h n, ← hF n (decide (n = F)) (by simp)]
  simp

theorem attrsSettled_self (hplain : PlainTarget o.ModuleName R M F)
    (hhelp : PlainHelpers o.ModuleName R M) (h : deobfuscateFunction o P I R M F = .ok M') :
    AttrsSettled o.ModuleName R M' F := by
  intro n target hn
  rw [attrsOf_link_step h n, attrsOf_step h n]
  cases ha : (linkRuntime M R).attrsOf n with
  | none => simp
  | some a =>
    by_cases hnF : n = F
    · subst hnF
      simpa [runtime_bodyOf_of_ok h, hplain.1] using attrsAfter_target (hplain.2 a ha) target
    · obtain rfl : target = false := by
        cases target
        · rfl
        · exact absurd (hn rfl) hnF
      by_cases hR : (R.bodyOf n).isSome = true
      · simp [hnF, hR]
      · have hidem : attrsAfter (n ∈ helperFunctions o.ModuleName) false
            (attrsAfter (n ∈ helperFunctions o.ModuleName) false a) =
              attrsAfter (n ∈ helperFunctions o.ModuleName) false a :=
          attrsAfter_idem fun hhelper => hhelp n (by simpa using hhelper) a ha
        simp [hnF, hR, hidem]

/-- A call for another function leaves the attributes of `G` as they are. -/
theorem AttrsSettled.step (hG : AttrsSettled o.ModuleName R M G)
    (hF : AttrsSettled o.ModuleName R M' F) (hGF : G ≠ F)
    (h : deobfuscateFunction o P I R M F = .ok M') : AttrsSettled o.ModuleName R M' G := by
  intro n target hn
  cases target with
  | false => exact hF n false (by simp)
  | true =>
    obtain rfl := hn rfl
    have hsame : M'.attrsOf n = M.attrsOf n := by
      rw [attrsOf_step h n, ← hG n false (by simp)]
      simp [hGF]
    rw [attrsOf_linkRuntime, hsame, ← attrsOf_linkRuntime]
    exact hG n true fun _ => rfl

end Attributes

/-! ## Whole runs -/

section Runs

variable {o : Options} {I I' : InlineRuns} {R M M' : Module} {names names' : List String}

/-- After a run there is nothing left to do for any listed function. -/
theorem settled_run (hRnd : R.globalValues.Nodup)
    (h : deobfuscateFunctions o .off I R M names = .ok M') :
    ∀ G ∈ names, Settled o.ModuleName o.ReplaceInstanceRefs R M' G :=
  foldlM_forall (I := fun _ _ => True)
    (fun _ hM₁ => ⟨trivial, settled_self hRnd hM₁, fun _ hGF hG => hG.step hRnd hGF hM₁⟩)
    trivial h

theorem attrsSettled_run (hhelp : PlainHelpers o.ModuleName R M)
    (hplain : ∀ F ∈ names, PlainTarget o.ModuleName R M F)
    (h : deobfuscateFunctions o .off I R M names = .ok M') :
    ∀ G ∈ names, AttrsSettled o.ModuleName R M' G := by
  refine foldlM_forall
    (I := fun names M => PlainHelpers o.ModuleName R M ∧
      ∀ F ∈ names, PlainTarget o.ModuleName R M F) ?_ ⟨hhelp, hplain⟩ h
  rintro F names M M₁ ⟨hhelp, hplain⟩ hM₁
  obtain ⟨hF, hplain⟩ := List.forall_mem_cons.mp hplain
  have hself := attrsSettled_self hF hhelp hM₁
  exact ⟨⟨plainHelpers_step hhelp hM₁, fun G hG => plainTarget_step (hplain G hG) hM₁⟩, hself,
    fun G hGF hG => hG.step hself hGF hM₁⟩

/-- Functions for which nothing is left to do, one after the other. -/
theorem again_run (hRnd : R.globalValues.Nodup) (ho : o.InjectInitializer = false)
    (hfuel : 0 < I.fuel) (hM : ∀ F ∈ names, Settled o.ModuleName o.ReplaceInstanceRefs R M F) :
    ∃ M', deobfuscateFunctions o .off I R M names = .ok M' ∧
      M'.declarations = M.declarations ∧ SameCode [] M M' ∧
      ((∀ F ∈ names, AttrsSettled o.ModuleName R M F) → ∀ n, M'.attrsOf n = M.attrsOf n) := by
  induction names generalizing M with
  | nil => exact ⟨M, rfl, rfl, fun _ _ => rfl, fun _ _ => rfl⟩
  | cons F names ih =>
    obtain ⟨hF, hM⟩ := List.forall_mem_cons.mp hM
    obtain ⟨M₁, hM₁, hdecl, hcode⟩ := hF.again ho hfuel
    have hM' : ∀ G ∈ names, Settled o.ModuleName o.ReplaceInstanceRefs R M₁ G := by
      intro G hG
      by_cases hGF : G = F
      · exact hGF ▸ settled_self hRnd hM₁
      · exact (hM G hG).step hRnd hGF hM₁
    obtain ⟨M', hrun, hdecl', hcode', hattrs'⟩ := ih hM'
    refine ⟨M', ?_, hdecl'.trans hdecl, hcode.trans hcode', fun hattrs n => ?_⟩
    · simp only [deobfuscateFunctions, List.foldlM_cons, bind_eq_ok]
      exact ⟨M₁, hM₁, hrun⟩
    · obtain ⟨hattrsF, hattrs⟩ := List.forall_mem_cons.mp hattrs
      have hsame := hattrsF.again hM₁
      rw [hattrs' fun G hG => (hattrs G hG).congr hsame, hsame]

/-- The tool on its own output: the listed functions, or some of them, in any order and as often
as one likes. -/
theorem deobfuscateFunctions_again (hRnd : R.globalValues.Nodup)
    (hM' : deobfuscateFunctions o .off I R M names = .ok M') (hnames : names' ⊆ names)
    (hfuel : 0 < I'.fuel) :
    ∃ M'', deobfuscateFunctions { o with InjectInitializer := false } .off I' R M' names' =
        .ok M'' ∧
      M''.declarations = M'.declarations ∧ SameCode [] M' M'' ∧
      (PlainHelpers o.ModuleName R M → (∀ F ∈ names, PlainTarget o.ModuleName R M F) →
        M'.Same M'') := by
  have hsettled := settled_run hRnd hM'
  obtain ⟨M'', hrun, hdecl, hcode, hattrs⟩ :=
    again_run (o := { o with InjectInitializer := false }) hRnd rfl hfuel
      fun F hF => hsettled F (hnames hF)
  refine ⟨M'', hrun, hdecl, hcode, fun hhelp hplain g => ?_⟩
  have hattrsSettled := attrsSettled_run hhelp hplain hM'
  exact ⟨rfl, hdecl, (hattrs (fun F hF => hattrsSettled F (hnames hF)) g).symm,
    hcode g List.not_mem_nil⟩

theorem plainHelpers_pair : PlainHelpers "squanchy" trapRuntime pairModule := by
  have hall : ∀ n ∈ helperFunctions "squanchy",
      ((linkRuntime pairModule trapRuntime).attrsOf n).all (.noInline ∉ ·) = true := by
    decide +kernel
  intro n hn a ha
  have := hall n hn
  rw [Option.mem_def.mp ha] at this
  simpa using this

/-- One round each is enough for two functions that went through the tool, named in any order. -/
theorem deobfuscateFunctions_again_pair :
    ∃ M'', deobfuscateFunctions { InjectInitializer := false } .off (plainRuns 1) trapRuntime
        pairModuleAfter ["w2c_squanchy_f1", "w2c_squanchy_f0", "w2c_squanchy_f1"] = .ok M'' ∧
      pairModuleAfter.Same M'' := by
  have hfirst : deobfuscateFunctions {} .off (plainRuns 4) trapRuntime pairModule pairNames =
      .ok pairModuleAfter := ok_getD (by decide +kernel) _
  have hlisted : ["w2c_squanchy_f1", "w2c_squanchy_f0", "w2c_squanchy_f1"] ⊆ pairNames := by
    decide
  obtain ⟨M'', hrun, -, -, hsame⟩ := deobfuscateFunctions_again (by decide) hfirst hlisted
    (show 0 < (plainRuns 1).fuel by decide)
  exact ⟨M'', hrun, hsame plainHelpers_pair plainTarget_pair⟩

end Runs

end Squanchy
