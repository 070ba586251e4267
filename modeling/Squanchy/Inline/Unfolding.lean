import Squanchy.Inline.Termination

/-!
# What the inlining loop leaves is the unfolding of the body

`Unfolds` says by recursion on the code what full inlining is: every marked call becomes a
copy of its callee's body, unfolded itself, and all the rest stays in its place. No rule of
it mentions rounds or an order. Inlining one call leaves the unfolding of a body as it was,
so every order in every round ends at the same body.
-/

namespace Squanchy

open Library Relation

/-- `Unfolds M c u`: `u` is `c` with its marked calls, and those of the bodies copied for
them, expanded to the end. -/
inductive Unfolds (M : Module) : Code → Code → Prop
  | stop : Unfolds M .stop .stop
  | label {l : String} {k u : Code} : Unfolds M k u → Unfolds M (.label l k) (.label l u)
  | instr {i : Instr} {k u : Code} : (∀ call, i = .call call → call.inlinable M = false) →
      Unfolds M k u → Unfolds M (.instr i k) (.instr i u)
  | call {call : CallBase} {g : String} {b : Body} {k v u : Code} :
      call.inlinable M = true → call.getCalledFunction M = some g → M.bodyOf g = some b →
      Unfolds M b.code v → Unfolds M k u →
      Unfolds M (.instr (.call call) k) (.inlined call.dst call.args v u)
  | inlined {dst : Option Nat} {args : List Operand} {b k v u : Code} :
      Unfolds M b v → Unfolds M k u →
      Unfolds M (.inlined dst args b k) (.inlined dst args v u)

namespace Unfolds

variable {M : Module}

theorem unique {c u u' : Code} (h : Unfolds M c u) (h' : Unfolds M c u') : u = u' := by
  induction h generalizing u' with
  | stop =>
    cases h'
    rfl
  | label _ ih =>
    cases h' with
    | label hk => rw [ih hk]
  | instr hi _ ih =>
    cases h' with
    | instr _ hk => rw [ih hk]
    | call hcall => simp [hi _ rfl] at hcall
  | call hcall hg hb _ _ ihb ihk =>
    cases h' with
    | instr hi _ => simp [hi _ rfl] at hcall
    | call _ hg' hb' hv hk =>
      obtain rfl := Option.some.inj (hg.symm.trans hg')
      obtain rfl := Option.some.inj (hb.symm.trans hb')
      rw [ihb hv, ihk hk]
  | inlined _ _ ihb ihk =>
    cases h' with
    | inlined hv hk => rw [ihb hv, ihk hk]

/-- Code without marked calls is its own unfolding. -/
theorem eq_self {c u : Code} (h : Unfolds M c u) (hc : ∀ g, ¬ c.Marked M g) : u = c := by
  induction h with
  | stop => rfl
  | label _ ih => rw [ih fun g ⟨p, hp⟩ => hc g ⟨.next :: p, hp⟩]
  | instr _ _ ih => rw [ih fun g ⟨p, hp⟩ => hc g ⟨.next :: p, hp⟩]
  | call hcall hg => exact absurd (.intro (p := []) rfl hcall hg) (hc _)
  | inlined _ _ ihb ihk =>
    rw [ihb fun g ⟨p, hp⟩ => hc g ⟨.down :: p, hp⟩, ihk fun g ⟨p, hp⟩ => hc g ⟨.next :: p, hp⟩]

/-! ## Which code has an unfolding -/

/-- Code unfolds if the bodies its marked calls bring in do. -/
theorem exists_of_callees {c : Code}
    (h : ∀ g, c.Marked M g → ∃ b v, M.bodyOf g = some b ∧ Unfolds M b.code v) :
    ∃ u, Unfolds M c u := by
  induction c with
  | stop => exact ⟨.stop, .stop⟩
  | label l k ih =>
    obtain ⟨u, hu⟩ := ih fun g ⟨p, hp⟩ => h g ⟨.next :: p, hp⟩
    exact ⟨.label l u, .label hu⟩
  | instr i k ih =>
    obtain ⟨u, hu⟩ := ih fun g ⟨p, hp⟩ => h g ⟨.next :: p, hp⟩
    by_cases hi : ∃ call, i = .call call ∧ call.inlinable M = true
    · obtain ⟨call, rfl, hcall⟩ := hi
      obtain ⟨_, g, hg, _⟩ := CallBase.inlinable_iff.mp hcall
      obtain ⟨b, v, hb, hv⟩ := h g (.intro (p := []) rfl hcall hg)
      exact ⟨.inlined call.dst call.args v u, .call hcall hg hb hv hu⟩
    · refine ⟨.instr i u, .instr (fun call hcall => ?_) hu⟩
      exact Bool.eq_false_iff.mpr fun hinl => hi ⟨call, hcall, hinl⟩
  | inlined dst args b k ihb ihk =>
    obtain ⟨v, hv⟩ := ihb fun g ⟨p, hp⟩ => h g ⟨.down :: p, hp⟩
    obtain ⟨u, hu⟩ := ihk fun g ⟨p, hp⟩ => h g ⟨.next :: p, hp⟩
    exact ⟨.inlined dst args v u, .inlined hv hu⟩

theorem exists_of_heightBelow {n : Nat} {c : Code} (h : c.HeightBelow M n) :
    ∃ u, Unfolds M c u := by
  induction n generalizing c with
  | zero => exact exists_of_callees fun g hg => absurd hg (h g)
  | succ n ih =>
    apply exists_of_callees
    intro g hg
    obtain ⟨_, _, _, _, _, hM⟩ := id hg
    obtain ⟨b, hb⟩ := hM.bodyOf
    obtain ⟨v, hv⟩ := ih (heightBelow_body (h g hg) hb)
    exact ⟨b, v, hb, hv⟩

/-- A function that reaches no cycle has an unfolding. -/
theorem exists_of_acyclic {F : String} (hF : ¬ ReachesCycle M.Inlines F) {b : Body}
    (hb : M.bodyOf F = some b) : ∃ u, Unfolds M b.code u := by
  obtain ⟨S, hS, htargets⟩ := M.inlines_finite
  obtain ⟨n, hn⟩ := exists_heightLe hS htargets hF
  exact exists_of_heightBelow (heightBelow_body hn hb)

/-! ## Inlining does not change the unfolding -/

/-- A marked call may be expanded first, by the body its callee has in `M`. -/
theorem inlineFunction {bodyOf : String → Option Body} {p : Path} {c u : Code}
    {call : CallBase} {g : String} (h : Unfolds M c u) (hp : c.callAt p = some call)
    (hi : call.inlinable M = true) (hg : call.getCalledFunction M = some g)
    (hb : bodyOf g = M.bodyOf g) : Unfolds M (c.inlineFunction bodyOf p) u := by
  induction h generalizing p with
  | stop => simp [Code.callAt] at hp
  | label hk ih =>
    rcases p with _ | ⟨_ | _, p⟩
    · simp [Code.callAt] at hp
    · exact .label (ih hp)
    · simp [Code.callAt] at hp
  | @instr i k u hcall hk ih =>
    rcases p with _ | ⟨_ | _, p⟩
    · cases i with
      | call c =>
        obtain rfl : c = call := by simpa [Code.callAt] using hp
        simp [hcall c rfl] at hi
      | _ => simp [Code.callAt] at hp
    · exact .instr hcall (ih hp)
    · simp [Code.callAt] at hp
  | @call c f b k v u hcall hf hbf hv hk _ ih =>
    rcases p with _ | ⟨_ | _, p⟩
    · obtain rfl : c = call := by simpa [Code.callAt] using hp
      obtain rfl := Option.some.inj (hf.symm.trans hg)
      simpa [Code.inlineFunction, CallBase.named hf, hb, hbf] using Unfolds.inlined hv hk
    · exact .call hcall hf hbf hv (ih hp)
    · simp [Code.callAt] at hp
  | inlined hv hk ihb ihk =>
    rcases p with _ | ⟨_ | _, p⟩
    · simp [Code.callAt] at hp
    · exact .inlined hv (ihk hp)
    · exact .inlined (ihb hp) hk

end Unfolds

/-! ## Rounds -/

/-- What the loop keeps true of a body, whichever calls are accepted: its marked calls are
callees of `F`, and `u` is its unfolding. -/
structure Expanding (M : Module) (F : String) (u : Code) (b : Body) : Prop where
  callees : CalleesOf M F b.code
  unfolds : Unfolds M b.code u

/-- The set of calls a round walks, as far as it matters. -/
def MarkedSites (M : Module) (sites : List Path) (b : Body) : Prop :=
  ∀ p ∈ sites, ∃ call, b.code.callAt p = some call ∧ call.inlinable M = true

/-- Each round walks its set in the order in which the calls stand in the body. -/
def Schedule.inOrder : Schedule := ⟨fun _ sites => sites, fun _ sites => .refl sites⟩

theorem Schedule.markedSites (s : Schedule) (round : Nat) (M : Module) (b : Body) :
    MarkedSites M (s.order round (b.code.callSites (·.inlinable M))) b :=
  fun _ hp => Code.mem_callSites.mp ((s.perm round _).mem_iff.mp hp)

theorem Schedule.nodup (s : Schedule) (round : Nat) (M : Module) (b : Body) :
    (s.order round (b.code.callSites (·.inlinable M))).Nodup :=
  (s.perm round _).nodup_iff.mpr (Code.nodup_callSites _ _)

/-- Inlining one call leaves the other ones to be inlined. -/
theorem MarkedSites.inlineFunction {M : Module} {p : Path} {sites : List Path} {b : Body}
    {bodyOf : String → Option Body} (h : MarkedSites M (p :: sites) b)
    (hnd : (p :: sites).Nodup) : MarkedSites M sites (b.inlineFunction bodyOf p) := by
  intro q hq
  obtain ⟨call, hcall, hi⟩ := h q (List.mem_cons_of_mem _ hq)
  have hqp : q ≠ p := fun h => (List.nodup_cons.mp hnd).1 (h ▸ hq)
  exact ⟨call, Code.callAt_inlineFunction_of_ne hcall hqp, hi⟩

/-- A round over marked calls keeps what inlining a marked call keeps. -/
theorem MarkedSites.inlineRound_keeps {M : Module} {F : String} {succeeds : Path → Bool}
    {P : Body → Prop}
    (hinline : ∀ b p call, b.code.callAt p = some call → call.inlinable M = true → P b →
      P (b.inlineFunction (M.setBody F b).bodyOf p))
    {sites : List Path} {b : Body} (hsites : MarkedSites M sites b) (hnd : sites.Nodup)
    (h : P b) : P (inlineRound M F succeeds sites b) := by
  refine (Squanchy.inlineRound_keeps (P := fun sites b => P b ∧ sites.Nodup ∧
    MarkedSites M sites b) ?_ ?_ ⟨h, hnd, hsites⟩).1
  · rintro p sites b ⟨h, hnd, hsites⟩
    obtain ⟨call, hcall, hi⟩ := hsites p List.mem_cons_self
    exact ⟨hinline b p call hcall hi h, (List.nodup_cons.mp hnd).2, hsites.inlineFunction hnd⟩
  · rintro p sites b ⟨h, hnd, hsites⟩
    exact ⟨h, (List.nodup_cons.mp hnd).2, fun q hq => hsites q (List.mem_cons_of_mem _ hq)⟩

section Acyclic

variable {M : Module} {F : String} {u : Code} (hF : ¬ ReachesCycle M.Inlines F)

include hF

theorem Expanding.inlineFunction {b : Body} (h : Expanding M F u b) {p : Path}
    {call : CallBase} (hp : b.code.callAt p = some call) (hi : call.inlinable M = true) :
    Expanding M F u (b.inlineFunction (M.setBody F b).bodyOf p) := by
  obtain ⟨_, g, hg, hM⟩ := CallBase.inlinable_iff.mp hi
  obtain ⟨bg, hbg⟩ := hM.bodyOf
  have hmark : b.code.Marked M g := .intro hp hi hg
  have hlookup : (M.setBody F b).bodyOf g = M.bodyOf g :=
    Module.bodyOf_setBody_of_ne (h.callees.ne hF hmark)
  refine ⟨?_, h.unfolds.inlineFunction hp hi hg hlookup⟩
  intro f hf
  obtain ⟨q, call', hq, hi', hf'⟩ := hf.elim
  rcases Code.callAt_inlineFunction hp (CallBase.named hg) (hlookup.trans hbg) hq with ⟨_, hold⟩ | ⟨r, _, hr⟩
  · exact h.callees f (.intro hold hi' hf')
  · exact (h.callees g hmark).tail ⟨bg, hbg, .intro hr hi' hf'⟩

theorem Expanding.inlineRound {succeeds : Path → Bool} {sites : List Path} {b : Body}
    (h : Expanding M F u b) (hnd : sites.Nodup) (hsites : MarkedSites M sites b) :
    Expanding M F u (inlineRound M F succeeds sites b) :=
  hsites.inlineRound_keeps (fun _ _ _ hcall hi h => h.inlineFunction hF hcall hi) hnd h

theorem Expanding.inlineLoop {s : Schedule} {succeeds : Nat → Path → Bool} {fuel round : Nat}
    {b b' : Body} (h : Expanding M F u b)
    (hloop : inlineLoop s succeeds M F fuel round b = some b') : Expanding M F u b' := by
  refine inlineLoop_keeps (P := Expanding M F u) (fun round b h => ?_) h hloop
  exact h.inlineRound hF (s.nodup round M b) (s.markedSites round M b)

end Acyclic

theorem entry_inlineRound {M : Module} {F : String} {succeeds : Path → Bool}
    {sites : List Path} {b : Body} : (inlineRound M F succeeds sites b).entry = b.entry :=
  inlineRound_keeps (P := fun _ b' => b'.entry = b.entry) (fun _ _ _ h => h)
    (fun _ _ _ h => h) rfl

theorem entry_inlineLoop {s : Schedule} {succeeds : Nat → Path → Bool} {M : Module} {F : String}
    {fuel round : Nat} {b b' : Body} (h : inlineLoop s succeeds M F fuel round b = some b') :
    b'.entry = b.entry :=
  inlineLoop_keeps (P := fun b' => b'.entry = b.entry)
    (fun _ _ hentry => entry_inlineRound.trans hentry) rfl h

/-! ## The result -/

/-- `M'` is `M` with the body of `F` unfolded and nothing else changed. -/
structure UnfoldingOf (M : Module) (F : String) (M' : Module) : Prop where
  body : ∀ b, M.bodyOf F = some b → ∃ u, M' = M.setBody F u ∧ u.entry = b.entry ∧
    ∀ c, Unfolds M b.code c ↔ c = u.code
  declaration : M.bodyOf F = none → M' = M

theorem UnfoldingOf.unique {M M₁ M₂ : Module} {F : String} (h₁ : UnfoldingOf M F M₁)
    (h₂ : UnfoldingOf M F M₂) : M₁ = M₂ := by
  cases hb : M.bodyOf F with
  | none => rw [h₁.declaration hb, h₂.declaration hb]
  | some b =>
    obtain ⟨u₁, rfl, hentry₁, hu₁⟩ := h₁.body b hb
    obtain ⟨u₂, rfl, hentry₂, hu₂⟩ := h₂.body b hb
    have hcode : u₁.code = u₂.code := (hu₂ _).mp ((hu₁ _).mpr rfl)
    have hentry : u₁.entry = u₂.entry := hentry₁.trans hentry₂.symm
    cases u₁
    cases u₂
    simp_all

theorem inlineFunctions_unfoldingOf {M M' : Module} {F : String}
    (hF : ¬ ReachesCycle M.Inlines F) {s : Schedule} {succeeds : Nat → Path → Bool} {fuel : Nat}
    (h : inlineFunctions s succeeds M F fuel = some M') : UnfoldingOf M F M' := by
  simp only [inlineFunctions] at h
  split at h
  · next hb =>
    obtain rfl := Option.some.inj h
    exact ⟨fun b hb' => by simp [hb] at hb', fun _ => rfl⟩
  · next b hb =>
    obtain ⟨b', hloop, rfl⟩ := Option.map_eq_some_iff.mp h
    refine ⟨fun b₁ hb₁ => ?_, fun hnone => by simp [hb] at hnone⟩
    obtain rfl := Option.some.inj (hb.symm.trans hb₁)
    obtain ⟨u, hu⟩ := Unfolds.exists_of_acyclic hF hb
    have hstart : Expanding M F u b := ⟨fun g hg => .single ⟨b, hb, hg⟩, hu⟩
    -- nothing marked is left, so the body has become its own unfolding
    have hcode : u = b'.code :=
      (hstart.inlineLoop hF hloop).unfolds.eq_self (inlineLoop_result hloop).1
    refine ⟨b', rfl, entry_inlineLoop hloop, fun c => ⟨fun hc => ?_, ?_⟩⟩
    · rw [hc.unique hu, hcode]
    · rintro rfl
      exact hcode ▸ hu

/-- With every single inlining successful, all orders of all rounds end at one module: the
one in which the body of `F` is unfolded. -/
theorem inlineFunctions_unfolds {M : Module} {F : String} (hF : ¬ ReachesCycle M.Inlines F) :
    ∃ M', UnfoldingOf M F M' ∧ ∀ s,
      (∃ fuel, inlineFunctions s (fun _ _ => true) M F fuel = some M') ∧
      ∀ fuel M'', inlineFunctions s (fun _ _ => true) M F fuel = some M'' → M'' = M' := by
  obtain ⟨fuel, M', h⟩ := inlineFunctions_ends hF .inOrder
  have hM' : UnfoldingOf M F M' := inlineFunctions_unfoldingOf hF h
  refine ⟨M', hM', fun s => ⟨?_, fun fuel M'' h => (inlineFunctions_unfoldingOf hF h).unique hM'⟩⟩
  obtain ⟨fuel, M'', hs⟩ := inlineFunctions_ends hF s
  exact ⟨fuel, (inlineFunctions_unfoldingOf hF hs).unique hM' ▸ hs⟩

/-- `main` calls `helper` twice, `helper` calls `leaf`, and both are to be inlined. -/
def nestedModule : Module where
  functions := [
    { name := "main", params := [],
      body := some ⟨"entry", .instr (.call { dst := none, callee := .func "helper", args := [] })
        (.instr (.call { dst := none, callee := .func "helper", args := [] })
        (.instr (.term (.ret none)) .stop)), rfl⟩ },
    { name := "helper", params := [], attrs := {.alwaysInline},
      body := some ⟨"entry", .instr (.call { dst := none, callee := .func "leaf", args := [] })
        (.instr (.term (.ret none)) .stop), rfl⟩ },
    { name := "leaf", params := [], attrs := {.alwaysInline}, body := some returnBody }]

theorem nestedModule_acyclic : ¬ ReachesCycle nestedModule.Inlines "main" := by
  have main : nestedModule.inlinees "main" = ["helper", "helper"] := by decide +kernel
  have helper : nestedModule.inlinees "helper" = ["leaf"] := by decide +kernel
  have leaf : nestedModule.inlinees "leaf" = [] := by decide +kernel
  have height : HeightLe nestedModule.Inlines 2 "main" := by
    intro g hg h hh k hk
    rw [Module.inlines_iff] at hg hh hk
    simp_all
  exact height.not_reachesCycle

theorem inlineFunctions_unfolds_nested : ∃ M', UnfoldingOf nestedModule "main" M' ∧ ∀ s,
    (∃ fuel, inlineFunctions s (fun _ _ => true) nestedModule "main" fuel = some M') ∧
    ∀ fuel M'', inlineFunctions s (fun _ _ => true) nestedModule "main" fuel = some M'' →
      M'' = M' :=
  inlineFunctions_unfolds nestedModule_acyclic

end Squanchy
