import Squanchy.Deobfuscator.Function
import Squanchy.Inline.Semantics
import Squanchy.Instance.Shape

/-!
# What injecting an instance preserves

The list of targets is processed one function after the other. A rewritten function stands
for the original called on a freshly instantiated instance, and does what that call does as
long as the call never reaches a function of the list again: there the original goes on with
the instance of its caller, while the rewritten function starts a new one.
-/

namespace Squanchy

open Library

/-! ## Processing the list -/

/-- Marks, injection and inlining of one target, and the attributes set after it. -/
def rewriteFunction (ModuleName : String) (I : InlineRuns) (M : Module) (F : String) :
    Except Abort Module := do
  let M := setFunctionsAlwayInline ModuleName (removeOptNone F M)
  let M ← injectInitializer ModuleName M F
  let M ← orThrow .outOfFuel (inlineFunctions (I.schedule F) (I.succeeds F) M F I.fuel)
  return setNoInline F M

def rewriteFunctions (ModuleName : String) (I : InlineRuns) (M : Module)
    (FunctionNames : List String) : Except Abort Module :=
  FunctionNames.foldlM (rewriteFunction ModuleName I) M

/-- The original function on a fresh instance: its environment and the instance are
allocated, the instance is set up, and the function runs on it. -/
def callOnFreshInstance (m : Machine) (M : Module) (F : String) (args : List Val) (h : Heap)
    (n : Nat) : Run Traced (Val × Heap) :=
  let env := Val.ptr (.block h.next) 0
  let self := Val.ptr (.block (h.next + 1)) 0
  let instantiate := "wasm2c_squanchy_instantiate"
  (((callFunction m M instantiate [self, env] h.alloc.alloc n).mapTrace deeper).emit
    [own (.call (M.functionType instantiate) instantiate [self, env])]).bind fun x =>
      callFunction m M F (self :: args) x.2 n

/-! ## One target after the other -/

theorem freshReg_unmark (c : Code) : c.unmark.freshReg = c.freshReg := by
  induction c with
  | stop => rfl
  | label l k ih => exact ih
  | instr i k ih => cases i <;> simp only [Code.unmark, Code.freshReg, ih] <;> rfl
  | inlined dst args b k ihb ihk => simp only [Code.unmark, Code.freshReg, ihb, ihk]

theorem unmark_mapOperands (g : Nat → Operand → Operand) (d : Nat) (c : Code) :
    (c.mapOperands g d).unmark = c.unmark.mapOperands g d := by
  unfold Code.mapOperands
  induction c generalizing d with
  | stop => rfl
  | label l k ih => simp only [Code.mapInstrs, Code.unmark, ih]
  | instr i k ih => cases i <;> simp only [Code.mapInstrs, Code.unmark, ih] <;> rfl
  | inlined dst args b k ihb ihk => simp only [Code.mapInstrs, Code.unmark, ihb, ihk]

theorem unmark_withInitializer {c c' : Code} (h : c.unmark = c'.unmark) (STEnv ST : Ty)
    (ty : FunctionType) (instantiate : String) :
    (c.withInitializer STEnv ST instantiate ty).unmark =
      (c'.withInitializer STEnv ST instantiate ty).unmark := by
  have hfresh : c.freshReg = c'.freshReg := by rw [← freshReg_unmark, h, freshReg_unmark]
  simp only [Code.withInitializer, Code.unmark, unmark_mapOperands, h, hfresh]

/-- What has become of `M` once the functions of `done` were processed: their bodies are
rewritten originals with callees copied in, and all other code is as it was. -/
structure Progress (M : Module) (X done : List String) (M' : Module) : Prop where
  types : M'.functionType = M.functionType
  others : SameCode done M M'
  rewritten : ∀ F ∈ done, ∃ b b' STEnv ST ty, M.bodyOf F = some b ∧ M'.bodyOf F = some b' ∧
    M.functionType "wasm2c_squanchy_instantiate" = some ty ∧
    Copied M X (b.code.withInitializer STEnv ST "wasm2c_squanchy_instantiate" ty) b'.code

namespace Progress

variable {M M' M'' : Module} {X done : List String}

theorem bodyOf_of_sameCode {Y : List String} (h : SameCode Y M M') {g : String} (hg : g ∉ Y)
    {b' : Body} (hb' : M'.bodyOf g = some b') :
    ∃ b, M.bodyOf g = some b ∧ b.code.unmark = b'.code.unmark := by
  have := h g hg
  rw [hb'] at this
  simpa using Option.map_eq_some_iff.mp this

/-- Code may change by marks at any time. -/
theorem sameCode (h : Progress M X done M') (h' : SameCode [] M' M'')
    (htypes : M''.functionType = M'.functionType) : Progress M X done M'' where
  types := htypes.trans h.types
  others := h.others.trans fun g _ => h' g (by simp)
  rewritten F hF := by
    obtain ⟨b, b', STEnv, ST, ty, hb, hb', hty, hc⟩ := h.rewritten F hF
    have := h' F (by simp)
    rw [hb'] at this
    obtain ⟨b'', hb'', he⟩ := Option.map_eq_some_iff.mp this.symm
    exact ⟨b, b'', STEnv, ST, ty, hb, hb'', hty, hc.congr_right he.symm⟩

theorem rewriteFunction {ModuleName F : String} {I : InlineRuns} (h : Progress M X done M')
    (hF : F ∉ done) (hFX : F ∈ X) (hdone : ∀ g ∈ done, g ∈ X)
    (hM'' : Squanchy.rewriteFunction ModuleName I M' F = .ok M'') :
    Progress M X (F :: done) M'' := by
  simp only [Squanchy.rewriteFunction, bind_eq_ok, orThrow_eq_ok, pure_eq_ok] at hM''
  obtain ⟨_, hinj, N, hN, rfl⟩ := hM''
  suffices h' : Progress M X (F :: done) N from
    h'.sameCode (.setNoInline [] F N) (functionType_setNoInline F N)
  obtain ⟨b₁, STEnv, ST, ty, hb₁, hty, rfl⟩ := injectInitializer_ok hinj
  -- the module whose marks are set stands for the one before
  have h₁ := h.sameCode ((SameCode.modify [] M' F (·.removeFnAttr .optimizeNone)
    (fun _ => rfl) fun _ => rfl).trans (.setFunctionsAlwayInline [] ModuleName _))
    ((functionType_setFunctionsAlwayInline ModuleName _).trans (functionType_removeOptNone F M'))
  generalize hM₁ : setFunctionsAlwayInline ModuleName (M'.modify F _) = M₁ at h₁
  have hrm : setFunctionsAlwayInline ModuleName (removeOptNone F M') = M₁ := hM₁
  rw [hrm] at hb₁ hty hN
  rw [h₁.types] at hty
  obtain ⟨b, hb, hcode⟩ := bodyOf_of_sameCode h₁.others hF hb₁
  obtain ⟨f₁, hf₁, _⟩ := Option.bind_eq_some_iff.mp hb₁
  set b₂ := b₁.withInitializer STEnv ST "wasm2c_squanchy_instantiate" ty
  have hsees : Copied.Sees M X (M₁.setBody F b₂) := by
    intro g b' hg hb'
    rw [Module.bodyOf_setBody_of_ne (by rintro rfl; exact hg hFX)] at hb'
    obtain ⟨b, hb, he⟩ := bodyOf_of_sameCode h₁.others (fun hd => hg (hdone g hd)) hb'
    exact ⟨b, hb, .of_unmark_eq he⟩
  have hstart : Copied M X
      (b.code.withInitializer STEnv ST "wasm2c_squanchy_instantiate" ty) b₂.code :=
    .of_unmark_eq (unmark_withInitializer hcode _ _ _ _)
  obtain ⟨b₃, rfl, hb₃⟩ := Copied.inlineFunctions hFX hsees (I.schedule F) (I.succeeds F)
    (Module.bodyOf_setBody_self hf₁) hstart hN
  have hother {g : String} (hg : g ≠ F) :
      ((M₁.setBody F b₂).setBody F b₃).bodyOf g = M₁.bodyOf g := by
    rw [Module.bodyOf_setBody_of_ne hg, Module.bodyOf_setBody_of_ne hg]
  refine ⟨by simpa using h₁.types, fun g hg => ?_, fun G hG => ?_⟩
  · obtain ⟨hgF, hgd⟩ := not_or.mp fun h => hg (List.mem_cons.mpr h)
    rw [hother hgF]
    exact h₁.others g hgd
  · by_cases hGF : G = F
    · subst hGF
      have hf₂ : ∃ f₂, (M₁.setBody G b₂).getFunction G = some f₂ := by
        simp [Module.setBody, Module.getFunction_modify, hf₁]
      obtain ⟨f₂, hf₂⟩ := hf₂
      exact ⟨b, b₃, STEnv, ST, ty, hb, Module.bodyOf_setBody_self hf₂, hty, hb₃⟩
    · rw [hother hGF]
      exact h₁.rewritten G ((List.mem_cons.mp hG).resolve_left hGF)

theorem rewriteFunctions {ModuleName : String} {I : InlineRuns} {names : List String}
    (h : Progress M X done M') (hnd : (names ++ done).Nodup) (hX : ∀ g ∈ names ++ done, g ∈ X)
    (hM'' : Squanchy.rewriteFunctions ModuleName I M' names = .ok M'') :
    ∃ done', (∀ F, F ∈ done' ↔ F ∈ names ∨ F ∈ done) ∧ Progress M X done' M'' := by
  induction names generalizing M' done with
  | nil =>
    obtain rfl : M' = M'' := by simpa [Squanchy.rewriteFunctions] using hM''
    exact ⟨done, by simp, h⟩
  | cons F names ih =>
    simp only [Squanchy.rewriteFunctions, List.foldlM_cons, bind_eq_ok] at hM''
    obtain ⟨M₁, hM₁, hrest⟩ := hM''
    have hperm : (F :: (names ++ done)).Perm (names ++ F :: done) :=
      List.perm_middle.symm
    have hF : F ∉ done := fun hd =>
      (List.nodup_cons.mp hnd).1 (List.mem_append_right _ hd)
    obtain ⟨done', hmem, hp⟩ := ih
      (h.rewriteFunction hF (hX F (by simp)) (fun g hg => hX g (by simp [hg])) hM₁)
      (hperm.nodup hnd) (fun g hg => hX g (hperm.mem_iff.mpr hg)) hrest
    refine ⟨done', fun G => ?_, hp⟩
    rw [hmem, List.mem_cons, List.mem_cons, or_left_comm, or_assoc]

theorem copiedIn (h : Progress M X done M') (hX : ∀ g ∈ done, g ∈ X) : M.CopiedIn X M' := by
  intro g hg
  have he := h.others g fun hd => hg (hX g hd)
  cases hb : M.bodyOf g with
  | none =>
    rw [hb] at he
    exact .inl ⟨rfl, by simpa using he.symm⟩
  | some b =>
    rw [hb] at he
    obtain ⟨b', hb', hcode⟩ := Option.map_eq_some_iff.mp he.symm
    exact .inr ⟨b, b', rfl, hb', .of_unmark_eq hcode.symm⟩

end Progress

/-! ## The entry of a rewritten function -/

/-- No call of the run reaches a function of `X`. -/
def Avoids (X : List String) (t : List Traced) : Prop :=
  ∀ e ∈ t, ∀ g ∈ e.2.callee, g ∉ X

instance (X : List String) (t : List Traced) : Decidable (Avoids X t) :=
  inferInstanceAs (Decidable (∀ e ∈ t, ∀ g ∈ e.2.callee, g ∉ X))

theorem foldlM_calls {X : List String} {t : List Traced} (h : Avoids X t) :
    t.foldlM (calls X).watch () = some () := by
  induction t with
  | nil => rfl
  | cons e t ih =>
    have he : (calls X).watch () e = some () := by
      obtain ⟨n, e⟩ := e
      cases e with
      | call b g args => simpa [calls] using h (n, .call b g args) (by simp) g rfl
      | _ => rfl
    rw [List.foldlM_cons, he]
    exact ih fun e he => h e (List.mem_cons_of_mem _ he)

/-- Whether a run stays clear of `X` shows in its calls alone. -/
theorem Avoids.of_sameCalls {X : List String} {t t' : List Traced} (h : Avoids X t)
    (he : t.filterMap sameCalls.view = t'.filterMap sameCalls.view) : Avoids X t' := by
  rintro ⟨n, e'⟩ he' g hg
  obtain ⟨b, args, rfl⟩ : ∃ b args, e' = .call b g args := by
    cases e' <;> grind [Event.callee]
  have hmem : Event.call b g args ∈ t.filterMap sameCalls.view := by
    rw [he]
    exact List.mem_filterMap.mpr ⟨_, he', rfl⟩
  obtain ⟨e, het, hview⟩ := List.mem_filterMap.mp hmem
  refine h e het g ?_
  obtain ⟨_, e⟩ := e
  cases e <;> simp_all [sameCalls, calledBy, Event.callee]

theorem sim_sameCalls_iff {α : Type*} {R : Unit → α → α → Prop} {r s : Run Traced α} :
    Run.Sim sameCalls R () r s ↔
      r.trace.filterMap sameCalls.view = s.trace.filterMap sameCalls.view ∧
        Result.Rel (R ()) r.result s.result := by
  have accepts (t : List Traced) : t.foldlM sameCalls.watch () = some () := by
    induction t with
    | nil => rfl
    | cons e t ih => exact ih
  constructor
  · intro h
    exact h () (accepts _)
  · intro h d' hd
    exact h

section Entry

variable {m : Machine} {M : Module}

/-- The harness with one more unit of fuel for the function than for the initializer, as the
rewritten function has it. -/
def callOnFreshInstance' (m : Machine) (M : Module) (F : String) (args : List Val) (h : Heap)
    (n : Nat) : Run Traced (Val × Heap) :=
  let env := Val.ptr (.block h.next) 0
  let self := Val.ptr (.block (h.next + 1)) 0
  let instantiate := "wasm2c_squanchy_instantiate"
  (((callFunction m M instantiate [self, env] h.alloc.alloc n).mapTrace deeper).emit
    [own (.call (M.functionType instantiate) instantiate [self, env])]).bind fun x =>
      callFunction m M F (self :: args) x.2 (n + 1)

theorem callOnFreshInstance_le (F : String) (args : List Val) (h : Heap) (n : Nat) :
    Run.Le (callOnFreshInstance m M F args h n) (callOnFreshInstance' m M F args h n) ∧
      Run.Le (callOnFreshInstance' m M F args h n) (callOnFreshInstance m M F args h (n + 1)) :=
  ⟨(Run.Le.refl _).bind fun x => callFunction_ascending m M F _ x.2 n,
    (((callFunction_ascending m M _ _ _ n).mapTrace _).emit _).bind fun _ => .refl _⟩

/-- The scope of a rewritten function once its entry has run. -/
def entryScope (w : Nat) (args : List Val) (h : Heap) : Scope where
  args
  regs :=
    Function.update (Function.update (fun _ => Val.undefined) (w + 1) (.ptr (.block h.next) 0)) w
      (.ptr (.block (h.next + 1)) 0)

theorem run_withInitializer (e : Exec) (F instantiate : String) (whole c : Code)
    (STEnv ST : Ty) (ty : FunctionType) (args : List Val) (h : Heap) :
    Code.run m M e F whole (c.withInitializer STEnv ST instantiate ty) [Scope.enter args] h =
      (((enter m M e instantiate [.ptr (.block (h.next + 1)) 0, .ptr (.block h.next) 0]
          h.alloc.alloc).mapTrace deeper).emit
        [own (.call (some ty) instantiate
          [.ptr (.block (h.next + 1)) 0, .ptr (.block h.next) 0])]).bind
        fun x => Code.run m M e F whole (c.mapOperands (replaceArg0 c.freshReg) 0)
          [entryScope c.freshReg args h] x.2 := by
  have hne : c.freshReg + 1 ≠ c.freshReg := by omega
  simp only [Code.withInitializer, Code.run, Simple.step, Run.pure_bind]
  rw [CallBase.run_of_not_asm (by simp)]
  simp only [Operand.eval, Frame.define, List.map_cons, List.map_nil, List.getElem?_cons_zero,
    Option.map_some, Option.getD_some, Function.update_self, Function.update_of_ne hne]
  rfl

theorem callOnFreshInstance_ascending (F : String) (args : List Val) (h : Heap) :
    Ascending (callOnFreshInstance m M F args h) := fun n =>
  (callOnFreshInstance_le F args h n).1.trans (callOnFreshInstance_le F args h n).2

/-- The injected code does what the harness does around the original. -/
theorem exec_withInitializerIn {δ ω : Type*} {C : Comparison Traced δ ω}
    {same : StoreSite → StoreSite → Prop} (hC : Blind same C)
    (hsame : ∀ w fn d v p, same ⟨fn, v, p⟩ ⟨fn, replaceArg0 w d v, replaceArg0 w d p⟩) {F : String}
    {b : Body} (hb : M.bodyOf F = some b) (STEnv ST : Ty) {ty : FunctionType}
    (hty : M.functionType "wasm2c_squanchy_instantiate" = some ty) (p : Val)
    (args : List Val) (d : δ) (h : Heap) (n : Nat) :
    let c := b.code.withInitializer STEnv ST "wasm2c_squanchy_instantiate" ty
    Run.Sim C (fun _ => Eq) d (callOnFreshInstance' m M F args h n)
      (exec m M (n + 1) F c c [Scope.enter (p :: args)] h) := by
  intro c
  have hentry : exec m M (n + 1) F c c [Scope.enter (p :: args)] h = _ :=
    run_withInitializer (exec m M n) F "wasm2c_squanchy_instantiate" c b.code STEnv ST ty
      (p :: args) h
  rw [hentry, callOnFreshInstance', hty]
  refine Run.Sim.bind (.refl (fun _ _ => rfl) _) ?_
  rintro d' ⟨_, h'⟩ _ rfl
  rw [callFunction, enter, hb]
  have hregs := Code.regsBelow_of_freshReg_le (le_refl b.code.freshReg) 0
  refine exec_replacedIn hC (hsame b.code.freshReg) (n + 1) F b.code c b.code [_] [_] d' h' ?_
    ⟨hregs, fun l => ?_⟩ hregs
  · refine ⟨[], _, _, rfl, rfl, ?_, fun x hx => ?_, fun i hi => ?_⟩
    · simp [entryScope, Scope.enter]
    · simp [entryScope, Scope.enter, Function.update_of_ne (Nat.ne_of_lt hx),
        Function.update_of_ne (Nat.ne_of_lt (hx.trans (Nat.lt_succ_self _)))]
    · obtain ⟨i, rfl⟩ := Nat.exists_eq_succ_of_ne_zero hi
      simp [entryScope, Scope.enter]
  · exact after_mapOperands _ 0 l b.code

theorem exec_withInitializer {F : String} {b : Body} (hb : M.bodyOf F = some b)
    (STEnv ST : Ty) {ty : FunctionType}
    (hty : M.functionType "wasm2c_squanchy_instantiate" = some ty) (p : Val) (args : List Val) (h : Heap) (n : Nat) :
    let c := b.code.withInitializer STEnv ST "wasm2c_squanchy_instantiate" ty
    Run.Sim sameCalls (fun _ => Eq) () (callOnFreshInstance' m M F args h n)
      (exec m M (n + 1) F c c [Scope.enter (p :: args)] h) :=
  exec_withInitializerIn callsOnly_sameCalls.blind (fun _ _ _ _ _ => trivial) hb STEnv ST hty p
    args () h n

end Entry

/-! ## The theorem -/

/-- Unless it reaches a listed function again, the call of a listed function on a fresh
instance and the call of its rewritten form return the same value, or trap or diverge
alike. -/
theorem rewriteFunctions_agree (m : Machine) {ModuleName : String} {I : InlineRuns}
    {M M' : Module} {FunctionNames : List String} (hnd : FunctionNames.Nodup)
    (hM' : rewriteFunctions ModuleName I M FunctionNames = .ok M') {F : String}
    (hF : F ∈ FunctionNames) (p : Val) (args : List Val) (h : Heap)
    (hclear : ∀ n, Avoids FunctionNames (callOnFreshInstance m M F args h n).trace) :
    Agree Prod.fst (callOnFreshInstance m M F args h) (callFunction m M' F (p :: args) h) := by
  have hstart : Progress M FunctionNames [] M := ⟨rfl, fun _ _ => rfl, by simp⟩
  obtain ⟨done, hdone, hp⟩ := hstart.rewriteFunctions (by simpa using hnd) (by simp) hM'
  have hcopied : M.CopiedIn FunctionNames M' :=
    hp.copiedIn fun g hg => by simpa using (hdone g).mp hg
  obtain ⟨b, b', STEnv, ST, ty, hb, hb', hty, hc⟩ :=
    hp.rewritten F ((hdone F).mpr (.inl hF))
  refine .of_between (fun n => (callOnFreshInstance_le F args h n).1)
    (fun n => (callOnFreshInstance_le F args h n).2) ?_ fun n => ?_
  · simp [callFunction, enter, hb', exec]
  · obtain ⟨hview, hres⟩ :=
      sim_sameCalls_iff.mp (exec_withInitializer (m := m) hb STEnv ST hty p args h n)
    have hclear' : Avoids FunctionNames (callOnFreshInstance' m M F args h n).trace := by
      intro e he
      refine hclear (n + 1) e ?_
      obtain heq | ⟨_, hpre⟩ := (callOnFreshInstance_le (m := m) (M := M) F args h n).2
      · rwa [← heq]
      · exact hpre.subset he
    set c := b.code.withInitializer STEnv ST "wasm2c_squanchy_instantiate" ty with hcdef
    have hclosed : c.Within [Scope.enter (p :: args)] :=
      ⟨by simp, Code.inScope_withInitializer b.closed⟩
    have hsim := exec_copied (m := m) hcopied (n + 1) F F c b'.code c b'.code
      [Scope.enter (p :: args)] [] h hc hc hclosed hclosed
    have hrun := (hsim () (foldlM_calls (hclear'.of_sameCalls hview))).2.eq
    rw [hres.eq, hrun]
    simp [callFunction, enter, hb']

/-! ## A function that calls itself -/

/-- Instance injection preserves the meaning of every listed function of every module of the
shape wasm2c emits. -/
def InjectionPreservesMeaning : Prop :=
  ∀ (m : Machine) (S : InstanceShape) (I : InlineRuns) (M M' : Module) (names : List String),
    S.struct = "struct.w2c_squanchy" → WasmShaped S M →
    rewriteFunctions "squanchy" I M names = .ok M' →
    ∀ F ∈ names, ∀ (p : Val) (args : List Val) (h : Heap),
      Agree Prod.fst (callOnFreshInstance m M F args h) (callFunction m M' F (p :: args) h)

def emptyHeap : Heap := ⟨0, fun _ => .undefined⟩

def rewrittenModule : Module :=
  (rewriteFunctions "squanchy" (plainRuns 3) recursiveModule ["w2c_squanchy_f0"]).toOption.getD
    recursiveModule

theorem rewrittenModule_eq :
    rewriteFunctions "squanchy" (plainRuns 3) recursiveModule ["w2c_squanchy_f0"] =
      .ok rewrittenModule :=
  ok_getD (by decide +kernel) _

/-- Called with 1, the original returns 7, and the rewritten function returns 0: its inner
call starts a new instance. -/
theorem recursion_restarts_instance : ¬ InjectionPreservesMeaning := by
  intro hall
  have hagree := hall cellMachine ⟨"struct.w2c_squanchy", fun _ => true⟩ (plainRuns 3)
    recursiveModule rewrittenModule ["w2c_squanchy_f0"] rfl (wasmShaped_recursiveModule rfl)
    rewrittenModule_eq "w2c_squanchy_f0" (by simp) .null [.int 1] emptyHeap
  obtain ⟨h₇, hseven⟩ := returned_eq_some.mp
    (show returned (callOnFreshInstance cellMachine recursiveModule "w2c_squanchy_f0" [.int 1]
      emptyHeap 6) = some (.int 7) by decide +kernel)
  obtain ⟨h₀, hzero⟩ := returned_eq_some.mp
    (show returned (callFunction cellMachine rewrittenModule "w2c_squanchy_f0" [.null, .int 1]
      emptyHeap 6) = some (.int 0) by decide +kernel)
  obtain ⟨⟨v, h⟩, hv, rfl⟩ := (hagree.returns (.int 7)).mp ⟨_, ⟨6, hseven⟩, rfl⟩
  have := (callFunction_ascending _ _ _ _ _).returns_unique hv ⟨6, hzero⟩
  simp at this

/-- Called with 0, neither calls itself, and both return the cleared field. -/
theorem rewriteFunctions_agree_of_zero :
    Agree Prod.fst (callOnFreshInstance cellMachine recursiveModule "w2c_squanchy_f0" [.int 0]
        emptyHeap)
      (callFunction cellMachine rewrittenModule "w2c_squanchy_f0" [.null, .int 0] emptyHeap) := by
  have hreturned : returned (callOnFreshInstance cellMachine recursiveModule "w2c_squanchy_f0"
      [.int 0] emptyHeap 6) = some (.int 0) := by decide +kernel
  have hclear : Avoids ["w2c_squanchy_f0"] (callOnFreshInstance cellMachine recursiveModule
      "w2c_squanchy_f0" [.int 0] emptyHeap 6).trace := by decide +kernel
  obtain ⟨h, hdone⟩ := returned_eq_some.mp hreturned
  refine rewriteFunctions_agree cellMachine (by simp) rewrittenModule_eq (by simp) .null
    [.int 0] emptyHeap fun n e he => hclear e ?_
  refine List.IsPrefix.subset (Ascending.trace_prefix
    (callOnFreshInstance_ascending _ _ _) ?_ n) he
  simp [hdone]

end Squanchy
