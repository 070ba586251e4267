import Squanchy.Inline.Basic
import Squanchy.Library.Height

/-!
# When the inlining loop ends

The relation `Inlines` follows direct calls to defined `AlwaysInline` functions. If no cycle
of it is reachable from `F`, then `F` is not among its own callees, every callee is copied
in its original form, and each round lowers the height of the calls left in `F` by one. If
a cycle is reachable, some call of `F` leads to it; replacing that call by its callee's body
brings in another call that does, also when the callee is `F` itself.
-/

namespace Squanchy

open Library Relation

/-- The code holds a direct call to the defined `AlwaysInline` function `g`. -/
def Code.Marked (M : Module) (c : Code) (g : String) : Prop :=
  ∃ p call, c.callAt p = some call ∧ call.isCallInst = true ∧
    call.getCalledFunction M = some g ∧ M.Inlinee g

/-- Function `f` holds a direct call to the defined `AlwaysInline` function `g`. -/
def Module.Inlines (M : Module) (f g : String) : Prop :=
  ∃ b, M.bodyOf f = some b ∧ b.code.Marked M g

theorem Code.Marked.intro {M : Module} {c : Code} {p : Path} {call : CallBase} {g : String}
    (hp : c.callAt p = some call) (hi : call.inlinable M = true)
    (hg : call.getCalledFunction M = some g) : c.Marked M g := by
  obtain ⟨hcall, g', hg', hM⟩ := CallBase.inlinable_iff.mp hi
  obtain rfl : g' = g := Option.some.inj (hg'.symm.trans hg)
  exact ⟨p, call, hp, hcall, hg, hM⟩

theorem Code.Marked.elim {M : Module} {c : Code} {g : String} (h : c.Marked M g) :
    ∃ p call, c.callAt p = some call ∧ call.inlinable M = true ∧
      call.getCalledFunction M = some g := by
  obtain ⟨p, call, hp, hcall, hg, hM⟩ := h
  exact ⟨p, call, hp, CallBase.inlinable_iff.mpr ⟨hcall, g, hg, hM⟩, hg⟩

/-- The functions that `f` inlines, in the order of their calls. -/
def Module.inlinees (M : Module) (f : String) : List String :=
  match M.bodyOf f with
  | none => []
  | some b => (b.code.callSites (·.inlinable M)).filterMap fun p =>
    (b.code.callAt p).bind (·.getCalledFunction M)

theorem Module.inlines_iff {M : Module} {f g : String} :
    M.Inlines f g ↔ g ∈ M.inlinees f := by
  simp only [Module.inlinees]
  split
  · next hb => simp [Module.Inlines, hb]
  · next b hb =>
    simp only [List.mem_filterMap, Option.bind_eq_some_iff]
    constructor
    · rintro ⟨b', hb', hmark⟩
      obtain rfl := Option.some.inj (hb.symm.trans hb')
      obtain ⟨p, call, hp, hi, hg⟩ := hmark.elim
      exact ⟨p, Code.mem_callSites.mpr ⟨call, hp, hi⟩, call, hp, hg⟩
    · rintro ⟨p, hp, call, hcall, hg⟩
      obtain ⟨call', hcall', hi⟩ := Code.mem_callSites.mp hp
      obtain rfl := Option.some.inj (hcall.symm.trans hcall')
      exact ⟨b, hb, .intro hcall hi hg⟩

/-- Defined functions are the only targets, and a module has finitely many. -/
theorem Module.inlines_finite (M : Module) :
    ∃ S : Set String, S.Finite ∧ ∀ f g, M.Inlines f g → g ∈ S := by
  refine ⟨{n | n ∈ M.functions.map (·.name)}, List.finite_toSet _, ?_⟩
  rintro f g ⟨_, _, _, _, _, _, _, fn, hfn, _⟩
  exact List.mem_map.mpr ⟨fn, List.mem_of_find?_eq_some hfn, Module.getFunction_name hfn⟩

/-! ## A round without the function itself among the callees -/

/-- Walking a set of calls to other functions leaves only calls that satisfy `P`, if the
bodies copied hold no other ones and the rest of the code did not either. -/
theorem inlineRound_marked {M : Module} {F : String} {P : String → Prop} {sites : List Path}
    {b : Body} (hnd : sites.Nodup)
    (hsite : ∀ p ∈ sites, ∃ call g bg, b.code.callAt p = some call ∧
      call.getCalledFunction M = some g ∧ g ≠ F ∧ M.bodyOf g = some bg ∧
      ∀ h, bg.code.Marked M h → P h)
    (hrest : ∀ p call g, b.code.callAt p = some call → call.inlinable M = true →
      call.getCalledFunction M = some g → p ∈ sites ∨ P g) {g : String}
    (hg : (inlineRound M F (fun _ => true) sites b).code.Marked M g) : P g := by
  induction sites generalizing b with
  | nil =>
    obtain ⟨p, call, hp, hi, hcall⟩ := hg.elim
    simpa using hrest p call g hp hi hcall
  | cons q sites ih =>
    obtain ⟨site, gq, bq, hq, hgq, hne, hbq, hP⟩ := hsite q (by simp)
    have hlookup : (M.setBody F b).bodyOf gq = some bq := by
      rw [Module.bodyOf_setBody_of_ne hne, hbq]
    refine ih (List.nodup_cons.mp hnd).2 ?_ ?_ hg
    · intro p hp
      obtain ⟨call, g', bg, hcall, hrest'⟩ := hsite p (List.mem_cons_of_mem _ hp)
      have hpq : p ≠ q := fun h => (List.nodup_cons.mp hnd).1 (h ▸ hp)
      exact ⟨call, g', bg, Code.callAt_inlineFunction_of_ne hcall hpq, hrest'⟩
    · intro p call g' hp hi hg'
      rcases Code.callAt_inlineFunction hq (CallBase.named hgq) hlookup hp with ⟨hpq, hold⟩ | ⟨r, _, hr⟩
      · rcases hrest p call g' hold hi hg' with hmem | h
        · exact .inl ((List.mem_cons.mp hmem).resolve_left hpq)
        · exact .inr h
      · exact .inr (hP g' (.intro hr hi hg'))

/-- All calls of the code go to functions of height below `n`. -/
def Code.HeightBelow (M : Module) : Nat → Code → Prop
  | 0, c => ∀ g, ¬ c.Marked M g
  | n + 1, c => ∀ g, c.Marked M g → HeightLe M.Inlines n g

theorem heightBelow_body {M : Module} {g : String} {b : Body} {n : Nat}
    (h : HeightLe M.Inlines n g) (hb : M.bodyOf g = some b) : b.code.HeightBelow M n := by
  cases n with
  | zero =>
    intro f hf
    exact h f ⟨b, hb, hf⟩
  | succ n =>
    intro f hf
    exact h f ⟨b, hb, hf⟩

theorem callSites_eq_nil_iff {M : Module} {c : Code} :
    c.callSites (·.inlinable M) = [] ↔ ∀ g, ¬ c.Marked M g := by
  rw [List.eq_nil_iff_forall_not_mem]
  constructor
  · intro h g hg
    obtain ⟨p, call, hp, hi, _⟩ := hg.elim
    exact h p (Code.mem_callSites.mpr ⟨call, hp, hi⟩)
  · intro h p hp
    obtain ⟨call, hcall, hi⟩ := Code.mem_callSites.mp hp
    obtain ⟨_, g, hg, _⟩ := CallBase.inlinable_iff.mp hi
    exact h g (.intro hcall hi hg)

/-- What the loop keeps true of a body that reaches no cycle: its calls stay callees of `F`. -/
def CalleesOf (M : Module) (F : String) (c : Code) : Prop :=
  ∀ g, c.Marked M g → TransGen M.Inlines F g

section Acyclic

variable {M : Module} {F : String} (hF : ¬ ReachesCycle M.Inlines F)

include hF

theorem CalleesOf.ne {c : Code} (hc : CalleesOf M F c) {g : String} (hg : c.Marked M g) :
    g ≠ F := by
  rintro rfl
  exact hF ⟨g, .refl, hc g hg⟩

/-- One round replaces the calls of `F` by those of the callees' original bodies. -/
theorem round_marked (s : Schedule) (round : Nat) {b : Body} (hb : CalleesOf M F b.code)
    {h : String} (hh : (inlineRound M F (fun _ => true)
      (s.order round (b.code.callSites (·.inlinable M))) b).code.Marked M h) :
    ∃ g, b.code.Marked M g ∧ M.Inlines g h := by
  have hperm := s.perm round (b.code.callSites (·.inlinable M))
  refine inlineRound_marked (P := fun h => ∃ g, b.code.Marked M g ∧ M.Inlines g h)
    (hperm.nodup_iff.mpr (Code.nodup_callSites _ _)) ?_ ?_ hh
  · intro p hp
    obtain ⟨call, hcall, hi⟩ := Code.mem_callSites.mp (hperm.mem_iff.mp hp)
    obtain ⟨_, g, hg, hM⟩ := CallBase.inlinable_iff.mp hi
    obtain ⟨bg, hbg⟩ := hM.bodyOf
    have hmark : b.code.Marked M g := .intro hcall hi hg
    exact ⟨call, g, bg, hcall, hg, hb.ne hF hmark, hbg, fun h hh => ⟨g, hmark, bg, hbg, hh⟩⟩
  · intro p call g hp hi hg
    exact .inl (hperm.mem_iff.mpr (Code.mem_callSites.mpr ⟨call, hp, hi⟩))

theorem CalleesOf.round (s : Schedule) (round : Nat) {b : Body} (hb : CalleesOf M F b.code) :
    CalleesOf M F (inlineRound M F (fun _ => true)
      (s.order round (b.code.callSites (·.inlinable M))) b).code := by
  intro h hh
  obtain ⟨g, hg, hgh⟩ := round_marked hF s round hb hh
  exact (hb g hg).tail hgh

theorem Code.HeightBelow.round (s : Schedule) (round : Nat) {b : Body} {n : Nat}
    (hb : CalleesOf M F b.code) (hn : b.code.HeightBelow M (n + 1)) :
    (inlineRound M F (fun _ => true)
      (s.order round (b.code.callSites (·.inlinable M))) b).code.HeightBelow M n := by
  have step : ∀ h, (inlineRound M F (fun _ => true)
      (s.order round (b.code.callSites (·.inlinable M))) b).code.Marked M h →
      ∃ g, HeightLe M.Inlines n g ∧ M.Inlines g h := by
    intro h hh
    obtain ⟨g, hg, hgh⟩ := round_marked hF s round hb hh
    exact ⟨g, hn g hg, hgh⟩
  cases n with
  | zero =>
    intro h hh
    obtain ⟨g, hg, hgh⟩ := step h hh
    exact hg h hgh
  | succ n =>
    intro h hh
    obtain ⟨g, hg, hgh⟩ := step h hh
    exact hg h hgh

/-- A body whose calls have height below `n` is fully inlined after `n` rounds. -/
theorem inlineLoop_ends (s : Schedule) {n : Nat} {b : Body} (round : Nat)
    (hb : CalleesOf M F b.code) (hn : b.code.HeightBelow M n) :
    ∃ b', inlineLoop s (fun _ _ => true) M F (n + 1) round b = some b' := by
  induction n generalizing b round with
  | zero =>
    have hnil : b.code.callSites (·.inlinable M) = [] := callSites_eq_nil_iff.mpr hn
    exact ⟨_, by simp only [inlineLoop, hnil, List.length_nil, if_true]; rfl⟩
  | succ n ih =>
    simp only [inlineLoop]
    split
    · exact ⟨_, rfl⟩
    · exact ih (round + 1) (hb.round hF s round) (hn.round hF s round hb)

end Acyclic

/-! ## A cycle keeps the loop going -/

/-- The code holds a call that leads to a cycle. -/
def Code.LeadsToCycle (M : Module) (c : Code) : Prop :=
  ∃ g, c.Marked M g ∧ ReachesCycle M.Inlines g

/-- Inlining a call never takes the last way to a cycle out of the body. When the call is
one of `F` itself, the copy of the present body holds that very call again. -/
theorem Code.LeadsToCycle.inlineFunction {M : Module} {F : String} {b : Body}
    (h : b.code.LeadsToCycle M) (p : Path) (hF : ∃ b₀, M.bodyOf F = some b₀) :
    (b.inlineFunction (M.setBody F b).bodyOf p).code.LeadsToCycle M := by
  obtain ⟨g, hg, hcycle⟩ := h
  obtain ⟨q, call, hq, hi, hcall⟩ := hg.elim
  by_cases hpq : q = p
  · subst hpq
    obtain ⟨h, bg, r, next, hlookup, hr, hnext, hh, hcycle'⟩ :
        ∃ h bg r next, (M.setBody F b).bodyOf g = some bg ∧ bg.code.callAt r = some next ∧
          next.inlinable M = true ∧ next.getCalledFunction M = some h ∧
          ReachesCycle M.Inlines h := by
      by_cases hgF : g = F
      · subst hgF
        obtain ⟨b₀, hb₀⟩ := hF
        obtain ⟨f, hf, _⟩ := Option.bind_eq_some_iff.mp hb₀
        exact ⟨g, b, q, call, Module.bodyOf_setBody_self hf, hq, hi, hcall, hcycle⟩
      · obtain ⟨h, ⟨bg, hbg, hmark⟩, hcycle'⟩ := hcycle.step
        obtain ⟨r, next, hr, hnext, hh⟩ := hmark.elim
        exact ⟨h, bg, r, next, by rw [Module.bodyOf_setBody_of_ne hgF, hbg], hr, hnext, hh,
          hcycle'⟩
    refine ⟨h, .intro (p := q ++ .down :: r) ?_ hnext hh, hcycle'⟩
    exact (Code.callAt_inlineFunction_down hq (CallBase.named hcall) hlookup).trans hr
  · exact ⟨g, .intro (Code.callAt_inlineFunction_of_ne hq hpq) hi hcall, hcycle⟩

theorem Code.LeadsToCycle.inlineRound {M : Module} {F : String} {succeeds : Path → Bool}
    {sites : List Path} {b : Body} (h : b.code.LeadsToCycle M)
    (hF : ∃ b₀, M.bodyOf F = some b₀) :
    (inlineRound M F succeeds sites b).code.LeadsToCycle M := by
  refine inlineRound_keeps (P := fun _ b => b.code.LeadsToCycle M) ?_ ?_ h
  · intro p _ _ h
    exact h.inlineFunction p hF
  · intro _ _ _ h
    exact h

theorem inlineLoop_never_ends (s : Schedule) (succeeds : Nat → Path → Bool) {M : Module}
    {F : String} {b : Body} (h : b.code.LeadsToCycle M) (hF : ∃ b₀, M.bodyOf F = some b₀)
    (fuel round : Nat) : inlineLoop s succeeds M F fuel round b = none := by
  induction fuel generalizing b round with
  | zero => rfl
  | succ fuel ih =>
    have hsites : (b.code.callSites (·.inlinable M)).length ≠ 0 := by
      intro hnil
      obtain ⟨g, hg, _⟩ := h
      exact callSites_eq_nil_iff.mp (List.length_eq_zero_iff.mp hnil) g hg
    simp only [inlineLoop, hsites, if_false]
    exact ih (h.inlineRound hF) (round + 1)

/-! ## What holds when the loop ends -/

/-- A call that is not inlined keeps its place. -/
theorem callAt_inlineRound {M : Module} {F : String} {succeeds : Path → Bool}
    {sites : List Path} {b : Body} {p : Path} {call : CallBase}
    (hp : b.code.callAt p = some call) (hsites : p ∉ sites) :
    (inlineRound M F succeeds sites b).code.callAt p = some call := by
  refine (inlineRound_keeps (P := fun sites b => p ∉ sites ∧ b.code.callAt p = some call)
    ?_ ?_ ⟨hsites, hp⟩).2
  · rintro q sites b ⟨hsites, hp⟩
    obtain ⟨hq, hrest⟩ := not_or.mp (mt List.mem_cons.mpr hsites)
    exact ⟨hrest, Code.callAt_inlineFunction_of_ne hp hq⟩
  · rintro q sites b ⟨hsites, hp⟩
    exact ⟨fun hmem => hsites (List.mem_cons_of_mem q hmem), hp⟩

theorem inlineLoop_result {s : Schedule} {succeeds : Nat → Path → Bool} {M : Module} {F : String}
    {fuel round : Nat} {b b' : Body} (h : inlineLoop s succeeds M F fuel round b = some b') :
    (∀ g, ¬ b'.code.Marked M g) ∧
      ∀ p call, b.code.callAt p = some call → call.inlinable M = false →
        b'.code.callAt p = some call := by
  induction fuel generalizing b round with
  | zero => cases h
  | succ fuel ih =>
    have kept : ∀ p call, b.code.callAt p = some call → call.inlinable M = false →
        (inlineRound M F (succeeds round)
          (s.order round (b.code.callSites (·.inlinable M))) b).code.callAt p = some call := by
      intro p call hp hi
      apply callAt_inlineRound hp
      intro hmem
      obtain ⟨call', hcall', hi'⟩ := Code.mem_callSites.mp ((s.perm _ _).mem_iff.mp hmem)
      obtain rfl : call = call' := Option.some.inj (hp.symm.trans hcall')
      simp [hi] at hi'
    simp only [inlineLoop] at h
    split at h
    · next hnil =>
      have hsites := List.length_eq_zero_iff.mp hnil
      obtain rfl := Option.some.inj h
      refine ⟨?_, kept⟩
      have hb : s.order round (b.code.callSites (·.inlinable M)) = [] := by
        simpa [hsites] using s.perm round (b.code.callSites (·.inlinable M))
      simpa only [hb, inlineRound, List.foldl_nil] using callSites_eq_nil_iff.mp hsites
    · obtain ⟨hdone, hkept⟩ := ih h
      exact ⟨hdone, fun p call hp hi => hkept p call (kept p call hp hi) hi⟩

theorem Module.inlinee_setBody {M : Module} {F : String} {b : Body} (hF : (M.bodyOf F).isSome)
    (g : String) : (M.setBody F b).Inlinee g ↔ M.Inlinee g := by
  by_cases hg : g = F
  · subst hg
    obtain ⟨b₀, hb₀⟩ := Option.isSome_iff_exists.mp hF
    obtain ⟨f, hf, hbody⟩ := Option.bind_eq_some_iff.mp hb₀
    simp [Module.Inlinee, Module.setBody, Module.getFunction_modify, hf, hbody]
  · have h : (M.setBody F b).getFunction g = M.getFunction g :=
      Module.getFunction_modify_of_ne (fun _ => rfl) hg
    simp [Module.Inlinee, h]

/-- What `inlineFunctions` promises of its result `M'`. -/
structure InliningComplete (M : Module) (F : String) (M' : Module) : Prop where
  /-- `F` holds no direct call to a defined function that carries `AlwaysInline`. -/
  done : ∀ g, ¬ M'.Inlines F g
  /-- Every other function is still there, unchanged. -/
  others : ∀ n, n ≠ F → M'.getFunction n = M.getFunction n
  /-- Every other call of `F` is still in its place. -/
  kept : ∀ b p call, M.bodyOf F = some b → b.code.callAt p = some call →
    (∀ g, call.getCalledFunction M = some g → call.isCallInst = true → ¬ M.Inlinee g) →
    ∃ b', M'.bodyOf F = some b' ∧ b'.code.callAt p = some call

theorem inlineFunctions_complete {s : Schedule} {succeeds : Nat → Path → Bool} {M M' : Module}
    {F : String} {fuel : Nat} (h : inlineFunctions s succeeds M F fuel = some M') :
    InliningComplete M F M' := by
  unfold inlineFunctions at h
  split at h
  · next hb =>
    obtain rfl := Option.some.inj h
    refine ⟨?_, fun _ _ => rfl, fun b _ _ hb' => ?_⟩
    · rintro g ⟨b, hb', _⟩
      simp [hb] at hb'
    · simp [hb] at hb'
  · next b hb =>
    obtain ⟨b', hloop, rfl⟩ := Option.map_eq_some_iff.mp h
    obtain ⟨hdone, hkept⟩ := inlineLoop_result hloop
    obtain ⟨f, hf, _⟩ := Option.bind_eq_some_iff.mp hb
    have hbody : (M.setBody F b').bodyOf F = some b' := Module.bodyOf_setBody_self hf
    refine ⟨?_, fun n hn => Module.getFunction_modify_of_ne (fun _ => rfl) hn, ?_⟩
    · rintro g ⟨b'', hb'', p, call, hp, hcall, hg, hM⟩
      obtain rfl := Option.some.inj (hbody.symm.trans hb'')
      rw [CallBase.getCalledFunction_setBody] at hg
      exact hdone g ⟨p, call, hp, hcall, hg, (Module.inlinee_setBody (by simp [hb]) g).mp hM⟩
    · intro b₁ p call hb₁ hp hnot
      obtain rfl := Option.some.inj (hb.symm.trans hb₁)
      refine ⟨b', hbody, hkept p call hp ?_⟩
      by_contra hi
      obtain ⟨hcall, g, hg, hM⟩ := CallBase.inlinable_iff.mp (Bool.of_not_eq_false hi)
      exact hnot g hg hcall hM

theorem inlineFunctions_ends {M : Module} {F : String} (hF : ¬ ReachesCycle M.Inlines F)
    (s : Schedule) : ∃ fuel M', inlineFunctions s (fun _ _ => true) M F fuel = some M' := by
  cases hb : M.bodyOf F with
  | none => exact ⟨0, M, by simp [inlineFunctions, hb]⟩
  | some b =>
    have hcallees : CalleesOf M F b.code := fun g hg => .single ⟨b, hb, hg⟩
    obtain ⟨S, hS, htargets⟩ := M.inlines_finite
    obtain ⟨n, hn⟩ := exists_heightLe hS htargets hF
    obtain ⟨b', hb'⟩ := inlineLoop_ends hF s 0 hcallees (heightBelow_body hn hb)
    exact ⟨n + 1, M.setBody F b', by simp [inlineFunctions, hb, hb']⟩

/-- With every single inlining successful, `inlineFunctions` returns exactly when `F` reaches
no cycle, for whatever order its sets are walked in; and its result is complete. -/
theorem inlineFunctions_returns_iff (s : Schedule) (M : Module) (F : String) :
    ((∃ fuel M', inlineFunctions s (fun _ _ => true) M F fuel = some M') ↔
      ¬ ReachesCycle M.Inlines F) ∧
    ∀ fuel M', inlineFunctions s (fun _ _ => true) M F fuel = some M' →
      InliningComplete M F M' := by
  refine ⟨⟨?_, fun hF => inlineFunctions_ends hF s⟩, fun fuel M' h => inlineFunctions_complete h⟩
  rintro ⟨fuel, M', h⟩ hcycle
  obtain ⟨g, ⟨b, hb, hmark⟩, hg⟩ := hcycle.step
  have hnever := inlineLoop_never_ends s (fun _ _ => true) ⟨g, hmark, hg⟩ ⟨b, hb⟩ fuel 0
  simp [inlineFunctions, hb, hnever] at h

end Squanchy
