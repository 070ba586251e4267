import Squanchy.Deobfuscator.InlineAsm
import Squanchy.Deobfuscator.Rewritten
import Squanchy.Instance.Meaning

/-!
# Inlining and dropping inline assembly keep every run

What can be seen of a run are the calls of functions without a body and of those reached
through a pointer, the fields that are addressed, and the cells that are read and written.
Neither inlining nor dropping calls of empty inline assembly changes any of it, nor the value
and the memory that the run ends with, for any function of the module and at any fuel.
-/

namespace Squanchy

open Library

/-! ## What can be seen of a run -/

def observe (M : Module) (e : Traced) : Option Event :=
  match e.2 with
  | .call direct g args =>
    if direct.isSome && (M.bodyOf g).isSome then none else some (.call direct g args)
  | .member struct base => some (.member struct base)
  | .read at_ => if at_ = [] then none else some (.read at_)
  | .write _ at_ => if at_ = [] then none else some (.write none at_)
  | .fault _ => none

def observations (M : Module) (t : List Traced) : List Event := t.filterMap (observe M)

/-- Reject a run at its first call of a function of `X`, and look at what can be seen of it. -/
def observed (M : Module) (X : List String) : Comparison Traced Unit Event where
  watch _ e := match e.2 with
    | .call _ g _ => if g ∈ X then none else some ()
    | _ => some ()
  view := observe M

/-- Two runs that look the same and end in the same way. -/
structure SameRun (M : Module) (r s : Run Traced (Val × Heap)) : Prop where
  observations : observations M r.trace = observations M s.trace
  result : r.result = s.result

theorem avoids_nil (t : List Traced) : Avoids [] t := fun _ _ _ _ => List.not_mem_nil

theorem SameRun.of_sim {M : Module} {X : List String} {r s : Run Traced (Val × Heap)}
    (h : Run.Sim (observed M X) (ReturnsIn fun _ => Eq) () r s) (hX : Avoids X r.trace) :
    SameRun M r s := by
  obtain ⟨hview, hres⟩ := h () (foldlM_calls hX)
  refine ⟨hview, ?_⟩
  generalize r.result = x at hres
  generalize s.result = y at hres
  cases hres with
  | done h => rw [Prod.ext h.1 h.2]
  | trap => rfl
  | timeout => rfl

/-! ## Inline assembly that does nothing -/

/-- The host neither reads nor writes, and it always returns. -/
def Host.Quiet (x : Host) : Prop :=
  ∀ args h, x.reads args h = [] ∧ ∃ v, x.effect args h = some { value := v, writes := [] }

theorem quiet_silent : Host.silent.Quiet := fun _ _ => ⟨rfl, _, rfl⟩

/-- A call of inline assembly that has no result and does nothing, as the barriers
`FORCE_READ_INT` and `FORCE_READ_FLOAT` are. -/
def Instr.IsBarrier (m : Machine) : Instr → Prop
  | .call c => c.dst = none ∧ ∃ t, c.callee = .asm t ∧ (m.asm t).Quiet
  | _ => False

theorem follows_observed (m : Machine) (M : Module) (X : List String) :
    Follows m M X (Instr.IsBarrier m) (observed M X) (fun _ => Eq) where
  watch_deeper _ _ := rfl
  view_deeper _ := rfl
  view_copied hb _ := by simp [observed, observe, own, hb]
  storesAlike _ _ := ⟨fun _ _ _ => rfl, fun _ _ => rfl⟩
  view_reads _ _ hh := by rw [hh]
  next hh := by rw [hh]
  alloc hh := by rw [hh]
  call hw hh := by
    simp only [observed, own] at hw
    split at hw
    · cases hw
    · rename_i hg
      exact ⟨hg, hh⟩
  member _ hh := hh
  read _ hh := ⟨hh, fun _ _ => by rw [hh]⟩
  write _ _ hh := by rw [hh]
  deleted_simple _ _ hs := hs.elim
  deleted_call := by
    rintro c ⟨hdst, t, ht, hquiet⟩
    refine ⟨t, ht, hdst, fun {d h h'} args hh => ?_⟩
    obtain ⟨hreads, v, heffect⟩ := hquiet args h
    simp only [Host.run, heffect, hreads]
    refine .emit_left (by simp [observed, observe, own]) fun _ _ => ?_
    refine .emit_left (by simp [observed, observe, own]) fun _ _ => .pure ?_
    simpa [Heap.writes] using hh
  deleted_term _ h := h

/-! ## Inlining -/

/-- The bodies of a module that holds one rewritten function. -/
theorem rewrittenIn_setBody {M : Module} {P : Instr → Prop} {F : String} {b b' : Body}
    (hb : M.bodyOf F = some b) (h : Rewritten M [] P b.code b'.code) :
    M.RewrittenIn [] P (M.setBody F b') := by
  intro g _
  by_cases hg : g = F
  · subst hg
    obtain ⟨f, hf, _⟩ := Option.bind_eq_some_iff.mp hb
    exact .inr ⟨b, b', hb, Module.bodyOf_setBody_self hf, h⟩
  · rw [Module.bodyOf_setBody_of_ne hg]
    cases M.bodyOf g with
    | none => exact .inl ⟨rfl, rfl⟩
    | some b => exact .inr ⟨b, b, rfl, rfl, .refl b.code⟩

/-- The partly inlined body is always a copy of the body that the loop has started from, also
where a function is inlined into itself. -/
theorem copied_inlineLoop {s : Schedule} {succeeds : Nat → Path → Bool} {M : Module} {F : String}
    {fuel round : Nat} {b b' : Body} (hb : M.bodyOf F = some b)
    (h : inlineLoop s succeeds M F fuel round b = some b') : Copied M [] b.code b'.code := by
  refine inlineLoop_keeps (P := fun b' => Copied M [] b.code b'.code) (fun round b' hb' => ?_)
    (.of_unmark_eq rfl) h
  refine inlineRound_keeps (P := fun _ b' => Copied M [] b.code b'.code) ?_ (fun _ _ _ h => h) hb'
  intro p _ b₁ hb₁
  refine hb₁.inlineFunction (fun g b₂ _ hb₂ => ?_) p
  by_cases hg : g = F
  · subst hg
    obtain ⟨f, hf, _⟩ := Option.bind_eq_some_iff.mp hb
    rw [Module.bodyOf_setBody_self hf] at hb₂
    obtain rfl := Option.some.inj hb₂
    exact ⟨b, hb, hb₁⟩
  · rw [Module.bodyOf_setBody_of_ne hg] at hb₂
    exact ⟨b₂, hb₂, .of_unmark_eq rfl⟩

/-- Inlining changes no run of any function: not for a function that calls itself, in no order
of the rounds, and whichever calls LLVM refuses. -/
theorem inlineFunctions_sameRun {s : Schedule} {succeeds : Nat → Path → Bool} {M M' : Module}
    {F : String} {fuel : Nat} (hM' : inlineFunctions s succeeds M F fuel = some M') (m : Machine)
    (g : String) (args : List Val) (h : Heap) (n : Nat) :
    SameRun M (callFunction m M g args h n) (callFunction m M' g args h n) := by
  refine SameRun.of_sim (X := []) ?_ (avoids_nil _)
  cases hb : M.bodyOf F with
  | none =>
    simp only [inlineFunctions, hb] at hM'
    obtain rfl := Option.some.inj hM'
    exact .refl (fun _ _ => ⟨rfl, rfl⟩) _
  | some b =>
    simp only [inlineFunctions, hb] at hM'
    obtain ⟨b', hb', rfl⟩ := Option.map_eq_some_iff.mp hM'
    exact callFunction_rewritten (follows_observed m M [])
      (rewrittenIn_setBody hb (.of_copied (copied_inlineLoop hb hb'))) List.not_mem_nil args rfl n

/-- A load of wasm2c that is to be inlined, and a function that calls it. -/
def loadBody : Body := ⟨"entry", loadCode, rfl⟩

def loadModule : Module where
  functions := [
    { name := "i32_load", params := [.ptr], retTy := .int 32, attrs := {.alwaysInline},
      body := some loadBody },
    { name := "w2c_squanchy_f0", params := [.ptr], retTy := .int 32,
      body := some
        { entry := "entry"
          code :=
            .instr (.call { dst := some 0,
                            functionType := { params := [.ptr], retTy := .int 32 },
                            callee := .func "i32_load", args := [.arg 0 0] }) <|
            .instr (.term (.ret (some (.reg 0 0)))) .stop
          closed := rfl } }]

def inlineLoad : Option Module :=
  inlineFunctions ((plainRuns 2).schedule "w2c_squanchy_f0")
    ((plainRuns 2).succeeds "w2c_squanchy_f0") loadModule "w2c_squanchy_f0" 2

theorem inlineFunctions_sameRun_load :
    SameRun loadModule
      (callFunction cellMachine loadModule "w2c_squanchy_f0" [.ptr (.block 0) 0]
        ⟨1, fun _ => .int 7⟩ 3)
      (callFunction cellMachine (inlineLoad.getD loadModule) "w2c_squanchy_f0" [.ptr (.block 0) 0]
        ⟨1, fun _ => .int 7⟩ 3) :=
  inlineFunctions_sameRun
    (show inlineLoad = some (inlineLoad.getD loadModule) by decide +kernel) cellMachine _ _ _ _

/-! ## Dropping inline assembly -/

theorem Instr.isAsmCall_unmark {i i' : Instr} (h : i.unmark = i'.unmark) :
    i.isAsmCall = i'.isAsmCall := by
  cases i with
  | simple s => rw [Instr.eq_simple_of_unmark h]
  | call c =>
    obtain ⟨a, rfl⟩ := Instr.eq_call_of_unmark h
    rfl
  | term t => rw [Instr.eq_term_of_unmark h]

/-- Dropping the inline assembly of a function changes no run if it consists of barriers. -/
theorem removeCallASMSideEffects_sameRun {m : Machine} {M : Module} {F : String} {f : Function}
    (hf : M.getFunction F = some f)
    (hasm : ∀ x ∈ f.instrs, x.2.isAsmCall = true → x.2.IsBarrier m) (g : String)
    (args : List Val) (h : Heap) (n : Nat) :
    SameRun M (callFunction m M g args h n)
      (callFunction m (removeCallASMSideEffects F M) g args h n) := by
  have hname (f : Function) : (f.eraseInstrs Instr.isAsmCall).name = f.name := rfl
  have hrewritten : M.RewrittenIn [] (Instr.IsBarrier m) (removeCallASMSideEffects F M) := by
    intro g _
    have hget : (removeCallASMSideEffects F M).getFunction g = if g = F then
        (M.getFunction g).map (·.eraseInstrs Instr.isAsmCall) else M.getFunction g :=
      Module.getFunction_modify M F (·.eraseInstrs Instr.isAsmCall) hname g
    by_cases hg : g = F
    · subst hg
      simp only [Module.bodyOf, hget, hf, if_true, Option.map_some, Option.bind_some]
      cases hb : f.body with
      | none => exact .inl ⟨rfl, by simp [Function.eraseInstrs, hb]⟩
      | some b =>
        simp only [Function.instrs, hb] at hasm
        exact .inr ⟨b, b.eraseInstrs Instr.isAsmCall, rfl, by simp [Function.eraseInstrs, hb],
          .eraseInstrs_self hasm⟩
    · simp only [Module.bodyOf, hget, if_neg hg]
      cases (M.getFunction g).bind (·.body) with
      | none => exact .inl ⟨rfl, rfl⟩
      | some b => exact .inr ⟨b, b, rfl, rfl, .refl b.code⟩
  exact .of_sim (callFunction_rewritten (follows_observed m M []) hrewritten List.not_mem_nil args
    rfl n) (avoids_nil _)

theorem removeCallASMSideEffects_sameRun_load :
    SameRun { functions := [loadingFunction] }
      (callFunction cellMachine { functions := [loadingFunction] } "w2c_squanchy_f0"
        [.ptr (.block 0) 0] ⟨1, fun _ => .int 7⟩ 3)
      (callFunction cellMachine
        (removeCallASMSideEffects "w2c_squanchy_f0" { functions := [loadingFunction] })
        "w2c_squanchy_f0" [.ptr (.block 0) 0] ⟨1, fun _ => .int 7⟩ 3) := by
  refine removeCallASMSideEffects_sameRun (f := loadingFunction) rfl (fun x hx hasm => ?_) _ _ _ _
  simp only [loadingFunction, Function.instrs, Code.instrs, loadCode, List.cons_append,
    List.nil_append, List.mem_cons, List.not_mem_nil, or_false] at hx
  rcases hx with rfl | rfl | rfl | rfl
  · cases hasm
  · exact ⟨rfl, "", rfl, quiet_silent⟩
  · cases hasm
  · cases hasm

/-! ## The functions that are not listed -/

namespace SameCode

variable {X : List String} {L M M' R : Module} {F : String}

theorem mono {Y : List String} (h : SameCode Y M M') (hY : Y ⊆ X) : SameCode X M M' :=
  fun g hg => h g fun hgY => hg (hY hgY)

/-- What happens to the functions called `F`. -/
theorem modify_self (M : Module) {f : Function → Function} (hname : ∀ g, (f g).name = g.name) :
    SameCode [F] M (M.modify F f) := by
  intro g hg
  rw [Module.bodyOf, Module.bodyOf,
    Module.getFunction_modify_of_ne hname (List.ne_of_not_mem_cons hg)]

theorem setBody (M : Module) (b : Body) : SameCode [F] M (M.setBody F b) :=
  .modify_self M (f := fun f => { f with body := some b }) fun _ => rfl

theorem removeOptNone (F : String) (M : Module) : SameCode X M (Squanchy.removeOptNone F M) :=
  .modify X M F (·.removeFnAttr .optimizeNone) (fun _ => rfl) fun _ => rfl

theorem linkRuntime (h : SameCode X M M') (R : Module) :
    SameCode X (Squanchy.linkRuntime M R) (Squanchy.linkRuntime M' R) := by
  intro g hg
  rw [bodyOf_linkRuntime, bodyOf_linkRuntime]
  cases R.bodyOf g with
  | none => exact h g hg
  | some b => rfl

/-- Linking the runtime once more. -/
theorem relink (h : SameCode X L M') (hR : ∀ g b, R.bodyOf g = some b → L.bodyOf g = some b) :
    SameCode X L (Squanchy.linkRuntime M' R) := by
  intro g hg
  rw [bodyOf_linkRuntime]
  cases hb : R.bodyOf g with
  | none => exact h g hg
  | some b => rw [hR g b hb, Option.some_or]

theorem runOn {P : FunctionPass} (h : Squanchy.runOn P F M = .ok M') : SameCode [F] M M' := by
  simp only [Squanchy.runOn, bind_eq_ok, orThrow_eq_ok, pure_eq_ok] at h
  obtain ⟨_, _, r, _, rfl⟩ := h
  exact .setBody M r.body

theorem prepareFunction {o : Options} {I : InlineRuns}
    (h : Squanchy.prepareFunction o I R M F = .ok M') :
    SameCode [F] (Squanchy.linkRuntime M R) M' := by
  simp only [Squanchy.prepareFunction, bind_eq_ok, orThrow_eq_ok, require_eq_ok, pure_eq_ok] at h
  obtain ⟨_, _, _, _, _, _, _, _, M₁, h₁, M₂, h₂, rfl⟩ := h
  have hmarked := ((SameCode.removeOptNone (X := [F]) F M).linkRuntime R).trans
    (.setFunctionsAlwayInline [F] o.ModuleName _)
  have hinject : SameCode [F] (Squanchy.linkRuntime M R) M₁ := by
    unfold whenSet at h₁
    split at h₁
    · obtain ⟨b, _, _, _, _, _, rfl⟩ := injectInitializer_ok h₁
      exact hmarked.trans (.setBody _ _)
    · exact Except.ok.inj h₁ ▸ hmarked
  have hinline : SameCode [F] M₁ M₂ := by
    unfold Squanchy.inlineFunctions at h₂
    split at h₂
    · exact Option.some.inj h₂ ▸ fun _ _ => rfl
    · obtain ⟨b, _, rfl⟩ := Option.map_eq_some_iff.mp h₂
      exact .setBody M₁ b
  refine (hinject.trans hinline).trans (.trans ?_ (.setNoInline [F] F _))
  exact .modify_self M₂ (f := fun f =>
    { f with body := f.body.map (·.eraseInstrs Instr.isAsmCall) }) fun _ => rfl

theorem optimizeAndReplace {o : Options} {P : Optimizers}
    (h : Squanchy.optimizeAndReplace o P M F = .ok M') : SameCode [F] M M' := by
  simp only [Squanchy.optimizeAndReplace, bind_eq_ok] at h
  obtain ⟨M₁, h₁, M₂, h₂, M₃, h₃, M₄, h₄, M₅, h₅, h₆⟩ := h
  have hrefs : SameCode [F] M₃ M₄ := by
    unfold whenSet at h₄
    split at h₄
    · simp only [replaceInstanceRefs, replaceRefsTo, bind_eq_ok, orThrow_eq_ok, pure_eq_ok] at h₄
      obtain ⟨_, ⟨_, _, _, _, rfl⟩, hN⟩ := h₄
      exact (modify_self M₃ (f := fun f => { f with body := f.body.map _ }) fun _ => rfl).trans
        (.runOn hN)
    · exact Except.ok.inj h₄ ▸ fun _ _ => rfl
  have htable : SameCode [F] M₄ M₅ := by
    unfold replaceFUNCREF_TABLE at h₅
    split at h₅
    · exact Except.ok.inj h₅ ▸ fun _ _ => rfl
    · simp only [bind_eq_ok, orThrow_eq_ok, pure_eq_ok] at h₅
      obtain ⟨_, _, _, _, rfl⟩ := h₅
      exact modify_self M₄ (f := fun f => { f with body := f.body.map _ }) fun _ => rfl
  exact ((((SameCode.runOn h₁).trans (.runOn h₂)).trans (.runOn h₃)).trans
    (hrefs.trans htable)).trans (.runOn h₆)

theorem deobfuscateFunction {o : Options} {P : Optimizers} {I : InlineRuns}
    (h : Squanchy.deobfuscateFunction o P I R M F = .ok M') :
    SameCode [F] (Squanchy.linkRuntime M R) M' := by
  obtain ⟨N, hN, hM'⟩ := bind_eq_ok.mp h
  exact (prepareFunction hN).trans (optimizeAndReplace hM')

theorem rewrittenIn {P : Instr → Prop} (h : SameCode X L M') : L.RewrittenIn X P M' := by
  intro g hg
  have he := h g hg
  cases hb : L.bodyOf g with
  | none =>
    rw [hb] at he
    exact .inl ⟨rfl, by simpa using he.symm⟩
  | some b =>
    rw [hb] at he
    obtain ⟨b', hb', hcode⟩ := Option.map_eq_some_iff.mp he.symm
    exact .inr ⟨b, b', rfl, hb', .of_copied (.of_unmark_eq hcode.symm)⟩

end SameCode

/-- Processing the listed functions changes no other function of the linked module but for
marks, whatever the options and the optimizers. -/
theorem sameCode_deobfuscateFunctions {o : Options} {P : Optimizers} {I : InlineRuns}
    {R M M' : Module} {names : List String} (hne : names ≠ [])
    (hM' : deobfuscateFunctions o P I R M names = .ok M') :
    SameCode names (linkRuntime M R) M' := by
  have hR (g : String) (b : Body) (hb : R.bodyOf g = some b) :
      (linkRuntime M R).bodyOf g = some b := by
    rw [bodyOf_linkRuntime, hb, Option.some_or]
  have hrest {X names : List String} {N : Module} (hnames : names ⊆ X)
      (hN : SameCode X (linkRuntime M R) N)
      (h : deobfuscateFunctions o P I R N names = .ok M') : SameCode X (linkRuntime M R) M' := by
    have hend := foldlM_keeps
      (I := fun names N => names ⊆ X ∧ SameCode X (linkRuntime M R) N) ?_ ⟨hnames, hN⟩ h
    · exact hend.2
    · rintro F names N N₁ ⟨hX, hN⟩ hN₁
      obtain ⟨hF, hnames⟩ := List.cons_subset.mp hX
      exact ⟨hnames, (hN.relink hR).trans
        ((SameCode.deobfuscateFunction hN₁).mono (by simpa using hF))⟩
  cases names with
  | nil => exact absurd rfl hne
  | cons F names =>
    simp only [deobfuscateFunctions, List.foldlM_cons, bind_eq_ok] at hM'
    obtain ⟨M₁, hM₁, hM'⟩ := hM'
    exact hrest (List.subset_cons_self F names)
      ((SameCode.deobfuscateFunction hM₁).mono (by simp)) hM'

/-- A function that is not listed runs as it does in the linked module, as long as it reaches
no function that is listed. -/
theorem deobfuscateFunctions_sameRun {o : Options} {P : Optimizers} {I : InlineRuns}
    {R M M' : Module} {names : List String} (hne : names ≠ [])
    (hM' : deobfuscateFunctions o P I R M names = .ok M') {m : Machine} {g : String}
    (hg : g ∉ names) {args : List Val} {h : Heap} {n : Nat}
    (hclear : Avoids names (callFunction m (linkRuntime M R) g args h n).trace) :
    SameRun (linkRuntime M R) (callFunction m (linkRuntime M R) g args h n)
      (callFunction m M' g args h n) :=
  .of_sim (callFunction_rewritten (follows_observed m (linkRuntime M R) names)
    (sameCode_deobfuscateFunctions hne hM').rewrittenIn hg args rfl n) hclear

/-- The load that was copied is still there. -/
theorem deobfuscateFunctions_sameRun_load :
    SameRun (linkRuntime loadModule { functions := [] })
      (callFunction cellMachine (linkRuntime loadModule { functions := [] }) "i32_load"
        [.ptr (.block 0) 0] ⟨1, fun _ => .int 7⟩ 3)
      (callFunction cellMachine ((deobfuscateFunctions { InjectInitializer := false } .off
        (plainRuns 2) { functions := [] } loadModule ["w2c_squanchy_f0"]).toOption.getD loadModule)
        "i32_load" [.ptr (.block 0) 0] ⟨1, fun _ => .int 7⟩ 3) :=
  deobfuscateFunctions_sameRun (o := { InjectInitializer := false }) (P := .off)
    (I := plainRuns 2) (R := { functions := [] }) (List.cons_ne_nil "w2c_squanchy_f0" [])
    (ok_getD (by decide +kernel) _) (by decide) (by decide +kernel)

end Squanchy
