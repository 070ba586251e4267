import Squanchy.Inline.Unfolding

/-!
# Inlining when LLVM may refuse a call

The loop goes on as long as the last round collected a call, whether or not one of them was
inlined, so a call that is refused in every round keeps it going for ever. `Tried` says, from
the bodies and LLVM's answers alone, which calls each round collects; it names no schedule.
If no call is refused for ever, some round accepts one again and again, each accepted call
adds a copy to the body, and the unfolding bounds the number of copies.
-/

namespace Squanchy

open Library Relation

/-- The marked call at `p` is collected in round `r`: it is one of the calls of `F`, or the
round before refused it, or accepted the call in whose copy it stands. -/
inductive Tried (M : Module) (F : String) (succeeds : Nat → Path → Bool) :
    Nat → Path → CallBase → Prop
  | own {b : Body} {p : Path} {call : CallBase} : M.bodyOf F = some b →
      b.code.callAt p = some call → call.inlinable M = true → Tried M F succeeds 0 p call
  | again {r : Nat} {p : Path} {call : CallBase} : Tried M F succeeds r p call →
      succeeds r p = false → Tried M F succeeds (r + 1) p call
  | copied {r : Nat} {p q : Path} {site call : CallBase} {g : String} {b : Body} :
      Tried M F succeeds r p site → succeeds r p = true → site.getCalledFunction M = some g →
      M.bodyOf g = some b → b.code.callAt q = some call → call.inlinable M = true →
      Tried M F succeeds (r + 1) (p ++ .down :: q) call

section Tried

variable {M : Module} {F : String} {succeeds : Nat → Path → Bool}

theorem Tried.inlinable {r : Nat} {p : Path} {call : CallBase}
    (h : Tried M F succeeds r p call) : call.inlinable M = true := by
  induction h with
  | own _ _ hi => exact hi
  | again _ _ ih => exact ih
  | copied _ _ _ _ _ hi _ => exact hi

theorem Tried.defined {r : Nat} {p : Path} {call : CallBase}
    (h : Tried M F succeeds r p call) : ∃ b, M.bodyOf F = some b := by
  induction h with
  | own hb => exact ⟨_, hb⟩
  | again _ _ ih => exact ih
  | copied _ _ _ _ _ _ ih => exact ih

/-- A round that tries a call comes after rounds that tried one. -/
theorem Tried.before {n r : Nat} {p : Path} {call : CallBase} (h : Tried M F succeeds r p call)
    (hn : n ≤ r) : ∃ q site, Tried M F succeeds n q site := by
  induction h with
  | own hb hp hi =>
    obtain rfl : n = 0 := Nat.le_zero.mp hn
    exact ⟨_, _, .own hb hp hi⟩
  | @again r p call h hfail ih =>
    rcases Nat.le_succ_iff.mp hn with hn | rfl
    · exact ih hn
    · exact ⟨p, call, .again h hfail⟩
  | copied h hok hg hb hq hi ih =>
    rcases Nat.le_succ_iff.mp hn with hn | rfl
    · exact ih hn
    · exact ⟨_, _, .copied h hok hg hb hq hi⟩

/-- As long as a call is refused it is tried again. -/
theorem Tried.stays {r n : Nat} {p : Path} {call : CallBase} (h : Tried M F succeeds r p call)
    (hn : r ≤ n) (hfail : ∀ m, r ≤ m → m < n → succeeds m p = false) :
    Tried M F succeeds n p call := by
  induction hn with
  | refl => exact h
  | @step n hn ih =>
    have hbefore : Tried M F succeeds n p call :=
      ih fun m hm hmn => hfail m hm (Nat.lt_succ_of_lt hmn)
    exact .again hbefore (hfail n hn (Nat.lt_succ_self n))

end Tried

/-! ## What one round does to every place -/

/-- The call at `p'` comes with the copy of a callee that a round over `sites` accepts. -/
def ComesWithCopy (M : Module) (succeeds : Path → Bool) (sites : List Path) (b : Body)
    (p' : Path) (call' : CallBase) : Prop :=
  ∃ p ∈ sites, succeeds p = true ∧ ∃ call g bg q, b.code.callAt p = some call ∧
    call.getCalledFunction M = some g ∧ M.bodyOf g = some bg ∧
    p' = p ++ .down :: q ∧ bg.code.callAt q = some call'

section Copies

variable {M : Module} {succeeds : Path → Bool} {sites : List Path} {b : Body} {p₀ p' : Path}
  {call' : CallBase}

theorem comesWithCopy_congr {b' : Body} (h : ∀ p ∈ sites, ∀ call,
    b'.code.callAt p = some call ↔ b.code.callAt p = some call) :
    ComesWithCopy M succeeds sites b' p' call' ↔ ComesWithCopy M succeeds sites b p' call' := by
  apply exists_congr
  intro p
  apply and_congr_right
  intro hp
  simp only [h p hp]

theorem comesWithCopy_cons_of_refused (hno : ¬ succeeds p₀ = true) :
    ComesWithCopy M succeeds (p₀ :: sites) b p' call' ↔
      ComesWithCopy M succeeds sites b p' call' := by
  constructor
  · rintro ⟨p, hp, hok, hrest⟩
    rcases List.mem_cons.mp hp with rfl | hp
    · exact absurd hok hno
    · exact ⟨p, hp, hok, hrest⟩
  · rintro ⟨p, hp, hrest⟩
    exact ⟨p, List.mem_cons_of_mem _ hp, hrest⟩

theorem comesWithCopy_cons_of_accepted (hok : succeeds p₀ = true) {site : CallBase} {g : String}
    {bg : Body} (hsite : b.code.callAt p₀ = some site) (hg : site.getCalledFunction M = some g)
    (hbg : M.bodyOf g = some bg) : ComesWithCopy M succeeds (p₀ :: sites) b p' call' ↔
      (∃ q, p' = p₀ ++ .down :: q ∧ bg.code.callAt q = some call') ∨
        ComesWithCopy M succeeds sites b p' call' := by
  constructor
  · rintro ⟨p, hp, hokp, call, f, bf, q, hcall, hf, hbf, rfl, hq⟩
    rcases List.mem_cons.mp hp with rfl | hp
    · obtain rfl := Option.some.inj (hsite.symm.trans hcall)
      obtain rfl := Option.some.inj (hg.symm.trans hf)
      obtain rfl := Option.some.inj (hbg.symm.trans hbf)
      exact .inl ⟨q, rfl, hq⟩
    · exact .inr ⟨p, hp, hokp, call, f, bf, q, hcall, hf, hbf, rfl, hq⟩
  · rintro (⟨q, rfl, hq⟩ | ⟨p, hp, hrest⟩)
    · exact ⟨p₀, List.mem_cons_self, hok, site, g, bg, q, hsite, hg, hbg, rfl, hq⟩
    · exact ⟨p, List.mem_cons_of_mem _ hp, hrest⟩

/-- A call collected with `p₀` is not inside the copy made for `p₀`. -/
theorem MarkedSites.callAt_inlineFunction_iff (hsites : MarkedSites M (p₀ :: sites) b)
    (hp₀ : p₀ ∉ sites) {lookup : String → Option Body} {p : Path} (hp : p ∈ sites)
    (call : CallBase) : (b.inlineFunction lookup p₀).code.callAt p = some call ↔
      b.code.callAt p = some call := by
  have hpp₀ : p ≠ p₀ := by
    rintro rfl
    exact hp₀ hp
  obtain ⟨call₁, hcall₁, _⟩ := hsites p (List.mem_cons_of_mem _ hp)
  have hkept : (b.inlineFunction lookup p₀).code.callAt p = some call₁ :=
    Code.callAt_inlineFunction_of_ne hcall₁ hpp₀
  rw [hkept, hcall₁]

end Copies

section Acyclic

variable {M : Module} {F : String} {u : Code} (hF : ¬ ReachesCycle M.Inlines F)

include hF

/-- After a round, a call stands where it stood before, unless it was accepted, or it has come
with a copy. -/
theorem callAt_inlineRound_iff {succeeds : Path → Bool} {sites : List Path} {b : Body}
    (h : Expanding M F u b) (hnd : sites.Nodup) (hsites : MarkedSites M sites b)
    {p' : Path} {call' : CallBase} :
    (inlineRound M F succeeds sites b).code.callAt p' = some call' ↔
      (b.code.callAt p' = some call' ∧ (p' ∈ sites → succeeds p' = false)) ∨
        ComesWithCopy M succeeds sites b p' call' := by
  induction sites generalizing b with
  | nil => simp [inlineRound, ComesWithCopy]
  | cons p₀ sites ih =>
    obtain ⟨hp₀, hnd'⟩ := List.nodup_cons.mp hnd
    simp only [inlineRound, List.foldl_cons]
    split
    · next hok =>
      obtain ⟨site, hsite, hi⟩ := hsites p₀ List.mem_cons_self
      obtain ⟨_, g, hg, hM⟩ := CallBase.inlinable_iff.mp hi
      obtain ⟨bg, hbg⟩ := hM.bodyOf
      have hne : g ≠ F := h.callees.ne hF (.intro hsite hi hg)
      have hlookup : (M.setBody F b).bodyOf g = some bg := by
        rw [Module.bodyOf_setBody_of_ne hne, hbg]
      have hcopy : (∃ q, p' = p₀ ++ .down :: q ∧ bg.code.callAt q = some call') →
          p' ∉ sites := by
        rintro ⟨q, rfl, _⟩ hmem
        obtain ⟨call₁, hcall₁, _⟩ := hsites _ (List.mem_cons_of_mem _ hmem)
        simp [Code.callAt_append_down hsite] at hcall₁
      refine (ih (h.inlineFunction hF hsite hi) hnd' (hsites.inlineFunction hnd)).trans ?_
      rw [comesWithCopy_congr fun p hp call => hsites.callAt_inlineFunction_iff hp₀ hp call,
        comesWithCopy_cons_of_accepted hok hsite hg hbg]
      have hcall : (b.inlineFunction (M.setBody F b).bodyOf p₀).code.callAt p' = some call' ↔
          (p' ≠ p₀ ∧ b.code.callAt p' = some call') ∨
            ∃ q, p' = p₀ ++ .down :: q ∧ bg.code.callAt q = some call' :=
        Code.callAt_inlineFunction_iff hsite (CallBase.named hg) hlookup
      rw [hcall, List.mem_cons]
      grind
    · next hno =>
      have hsites' : MarkedSites M sites b := fun q hq => hsites q (List.mem_cons_of_mem _ hq)
      refine (ih h hnd' hsites').trans ?_
      rw [comesWithCopy_cons_of_refused hno, List.mem_cons]
      grind

end Acyclic

/-! ## The body after each round -/

/-- The body of `F` before round `n` of the loop. -/
def bodyBefore (s : Schedule) (succeeds : Nat → Path → Bool) (M : Module) (F : String)
    (b : Body) : Nat → Body
  | 0 => b
  | n + 1 =>
    let b' := bodyBefore s succeeds M F b n
    inlineRound M F (succeeds n) (s.order n (b'.code.callSites (·.inlinable M))) b'

section Rounds

variable {s : Schedule} {succeeds : Nat → Path → Bool} {M : Module} {F : String} {b : Body}

/-- The loop ends as soon as a round collects no call. -/
theorem inlineLoop_bodyBefore_iff {r : Nat} :
    (∃ fuel b', inlineLoop s succeeds M F fuel r (bodyBefore s succeeds M F b r) = some b') ↔
      ∃ n ≥ r, ∀ g, ¬ (bodyBefore s succeeds M F b n).code.Marked M g := by
  constructor
  · rintro ⟨fuel, b', h⟩
    induction fuel generalizing r with
    | zero => cases h
    | succ fuel ih =>
      simp only [inlineLoop] at h
      split at h
      · next hnil =>
        exact ⟨r, Nat.le_refl r, callSites_eq_nil_iff.mp (List.length_eq_zero_iff.mp hnil)⟩
      · obtain ⟨n, hn, hdone⟩ := ih (r := r + 1) h
        exact ⟨n, Nat.le_of_succ_le hn, hdone⟩
  · rintro ⟨n, hn, hdone⟩
    obtain ⟨k, rfl⟩ := Nat.exists_eq_add_of_le hn
    clear hn
    induction k generalizing r with
    | zero =>
      have hnil : (bodyBefore s succeeds M F b r).code.callSites (·.inlinable M) = [] :=
        callSites_eq_nil_iff.mpr hdone
      refine ⟨1, bodyBefore s succeeds M F b (r + 1), ?_⟩
      simp only [inlineLoop, hnil, List.length_nil, if_true]
      simp only [bodyBefore, hnil]
    | succ k ih =>
      obtain ⟨fuel, b', h⟩ := ih (r := r + 1) (by rwa [Nat.add_right_comm])
      by_cases hnil : ((bodyBefore s succeeds M F b r).code.callSites
          (·.inlinable M)).length = 0
      · exact ⟨1, bodyBefore s succeeds M F b (r + 1), by
          simp only [inlineLoop, hnil, if_true, bodyBefore]⟩
      · exact ⟨fuel + 1, b', by simp only [inlineLoop, hnil, if_false]; exact h⟩

variable {u : Code} (hF : ¬ ReachesCycle M.Inlines F)

include hF

theorem Expanding.bodyBefore (h : Expanding M F u b) (n : Nat) :
    Expanding M F u (bodyBefore s succeeds M F b n) := by
  induction n with
  | zero => exact h
  | succ n ih => exact ih.inlineRound hF (s.nodup n M _) (s.markedSites n M _)

/-- The calls that stand in the body before a round are those that it tries. -/
theorem callAt_bodyBefore_iff (h : Expanding M F u b) (hb : M.bodyOf F = some b) {n : Nat}
    {p : Path} {call : CallBase} :
    ((bodyBefore s succeeds M F b n).code.callAt p = some call ∧ call.inlinable M = true) ↔
      Tried M F succeeds n p call := by
  induction n generalizing p call with
  | zero =>
    constructor
    · rintro ⟨hp, hi⟩
      exact .own hb hp hi
    · intro ht
      cases ht with
      | own hb' hp hi =>
        obtain rfl := Option.some.inj (hb.symm.trans hb')
        exact ⟨hp, hi⟩
  | succ n ih =>
    have hb' : Expanding M F u (Squanchy.bodyBefore s succeeds M F b n) := h.bodyBefore hF n
    have hmem : ∀ q, q ∈ s.order n ((Squanchy.bodyBefore s succeeds M F b n).code.callSites
        (·.inlinable M)) ↔ ∃ site, Tried M F succeeds n q site := by
      intro q
      rw [(s.perm n _).mem_iff, Code.mem_callSites]
      exact exists_congr fun site => ih
    simp only [Squanchy.bodyBefore]
    rw [callAt_inlineRound_iff hF hb' (s.nodup n M _) (s.markedSites n M _)]
    constructor
    · rintro ⟨⟨hp, hfail⟩ | ⟨q, hq, hok, site, g, bg, r, hsite, hg, hbg, rfl, hr⟩, hi⟩
      · have ht : Tried M F succeeds n p call := ih.mp ⟨hp, hi⟩
        exact .again ht (hfail ((hmem p).mpr ⟨call, ht⟩))
      · obtain ⟨site', ht⟩ := (hmem q).mp hq
        obtain ⟨hsite', _⟩ := ih.mpr ht
        obtain rfl := Option.some.inj (hsite.symm.trans hsite')
        exact .copied ht hok hg hbg hr hi
    · intro ht
      refine ⟨?_, ht.inlinable⟩
      cases ht with
      | again ht hfail =>
        exact .inl ⟨(ih.mpr ht).1, fun _ => hfail⟩
      | @copied _ q r site _ g bg ht hok hg hbg hr hi =>
        exact .inr ⟨q, (hmem q).mpr ⟨site, ht⟩, hok, site, g, bg, r, (ih.mpr ht).1, hg, hbg,
          rfl, hr⟩

end Rounds

/-! ## Each accepted call adds a copy -/

/-- The number of copies in a body, those inside copies included. -/
def Code.copies : Code → Nat
  | .stop => 0
  | .label _ k => k.copies
  | .instr _ k => k.copies
  | .inlined _ _ b k => b.copies + k.copies + 1

theorem Unfolds.copies_le {M : Module} {c u : Code} (h : Unfolds M c u) :
    c.copies ≤ u.copies := by
  induction h with
  | stop => exact Nat.le_refl 0
  | label _ ih => exact ih
  | instr _ _ ih => exact ih
  | call _ _ _ _ _ _ ihk =>
    simp only [Code.copies]
    omega
  | inlined _ _ ihb ihk =>
    simp only [Code.copies]
    omega

theorem Code.copies_lt_inlineFunction {bodyOf : String → Option Body} {q : Path} {c : Code}
    {site : CallBase} {g : String} {b : Body} (hq : c.callAt q = some site)
    (hg : site.namedCallee = some g) (hb : bodyOf g = some b) :
    c.copies < (c.inlineFunction bodyOf q).copies := by
  induction c generalizing q with
  | stop => simp [callAt] at hq
  | label l k ih =>
    rcases q with _ | ⟨_ | _, q⟩
    · simp [callAt] at hq
    · exact ih hq
    · simp [callAt] at hq
  | instr i k ih =>
    rcases q with _ | ⟨_ | _, q⟩
    · cases i with
      | call c =>
        obtain rfl : c = site := by simpa [callAt] using hq
        simp only [inlineFunction, hg, Option.bind_some, hb, copies]
        omega
      | _ => simp [callAt] at hq
    · exact ih hq
    · simp [callAt] at hq
  | inlined dst args b' k ihb ihk =>
    rcases q with _ | ⟨_ | _, q⟩
    · simp [callAt] at hq
    · have := ihk hq
      simp only [inlineFunction, copies]
      omega
    · have := ihb hq
      simp only [inlineFunction, copies]
      omega

section Progress

variable {M : Module} {F : String} {u : Code} (hF : ¬ ReachesCycle M.Inlines F)

include hF

theorem Expanding.copies_lt {b : Body} (h : Expanding M F u b) {p : Path} {call : CallBase}
    (hp : b.code.callAt p = some call) (hi : call.inlinable M = true) :
    b.code.copies < (b.inlineFunction (M.setBody F b).bodyOf p).code.copies := by
  obtain ⟨_, g, hg, hM⟩ := CallBase.inlinable_iff.mp hi
  obtain ⟨bg, hbg⟩ := hM.bodyOf
  have hne : g ≠ F := h.callees.ne hF (.intro hp hi hg)
  exact Code.copies_lt_inlineFunction hp (CallBase.named hg)
    ((Module.bodyOf_setBody_of_ne hne).trans hbg)

theorem Expanding.copies_le_inlineRound {succeeds : Path → Bool} {sites : List Path} {b : Body}
    (h : Expanding M F u b) (hnd : sites.Nodup) (hsites : MarkedSites M sites b) :
    b.code.copies ≤ (Squanchy.inlineRound M F succeeds sites b).code.copies := by
  refine (hsites.inlineRound_keeps (P := fun b' => Expanding M F u b' ∧
    b.code.copies ≤ b'.code.copies) ?_ hnd ⟨h, Nat.le_refl _⟩).2
  rintro b' p call hcall hi ⟨h, hle⟩
  have hlt := h.copies_lt hF hcall hi
  exact ⟨h.inlineFunction hF hcall hi, Nat.le_trans hle (Nat.le_of_lt hlt)⟩

theorem Expanding.copies_lt_inlineRound {succeeds : Path → Bool} {sites : List Path} {b : Body}
    (h : Expanding M F u b) (hnd : sites.Nodup) (hsites : MarkedSites M sites b) {p : Path}
    (hp : p ∈ sites) (hok : succeeds p = true) :
    b.code.copies < (Squanchy.inlineRound M F succeeds sites b).code.copies := by
  induction sites generalizing b with
  | nil => simp at hp
  | cons q sites ih =>
    have hnd' : sites.Nodup := (List.nodup_cons.mp hnd).2
    simp only [Squanchy.inlineRound, List.foldl_cons]
    split
    · obtain ⟨call, hcall, hi⟩ := hsites q List.mem_cons_self
      refine Nat.lt_of_lt_of_le (h.copies_lt hF hcall hi) ?_
      exact (h.inlineFunction hF hcall hi).copies_le_inlineRound hF hnd'
        (hsites.inlineFunction hnd)
    · next hno =>
      have hpq : p ≠ q := fun heq => hno (heq ▸ hok)
      exact ih h hnd' (fun r hr => hsites r (List.mem_cons_of_mem _ hr))
        ((List.mem_cons.mp hp).resolve_left hpq)

variable {s : Schedule} {succeeds : Nat → Path → Bool} {b : Body}

theorem copies_bodyBefore_mono (h : Expanding M F u b) :
    Monotone fun n => (bodyBefore s succeeds M F b n).code.copies :=
  monotone_nat_of_le_succ fun n =>
    (h.bodyBefore hF n).copies_le_inlineRound hF (s.nodup n M _) (s.markedSites n M _)

/-- While a call is left that some later round accepts, the copies become more. -/
theorem copies_grow (h : Expanding M F u b) (hb : M.bodyOf F = some b) {n : Nat}
    {p : Path} {call : CallBase} (ht : Tried M F succeeds n p call)
    (hok : ∃ r ≥ n, succeeds r p = true) :
    ∃ m, (bodyBefore s succeeds M F b n).code.copies <
      (bodyBefore s succeeds M F b m).code.copies := by
  classical
  -- the first round that accepts the call still finds it in its place
  let r := Nat.find hok
  obtain ⟨hr, hokr⟩ : n ≤ r ∧ succeeds r p = true := Nat.find_spec hok
  have hrefused : ∀ m, n ≤ m → m < r → succeeds m p = false := by
    intro m hm hmr
    exact Bool.eq_false_iff.mpr fun hokm => Nat.find_min hok hmr ⟨hm, hokm⟩
  have hstill : Tried M F succeeds r p call := ht.stays hr hrefused
  obtain ⟨hcall, hi⟩ := (callAt_bodyBefore_iff hF h hb (s := s)).mpr hstill
  refine ⟨r + 1, Nat.lt_of_le_of_lt (copies_bodyBefore_mono hF h hr) ?_⟩
  exact (h.bodyBefore hF r).copies_lt_inlineRound hF (s.nodup r M _) (s.markedSites r M _)
    ((s.perm r _).mem_iff.mpr (Code.mem_callSites.mpr ⟨call, hcall, hi⟩)) hokr

/-- If no call is refused for ever, some round finds nothing to do. -/
theorem exists_bodyBefore_done (hb : M.bodyOf F = some b)
    (hok : ∀ r p call, Tried M F succeeds r p call → ∃ r' ≥ r, succeeds r' p = true) :
    ∃ n, ∀ g, ¬ (bodyBefore s succeeds M F b n).code.Marked M g := by
  obtain ⟨u, hu⟩ := Unfolds.exists_of_acyclic hF hb
  have h : Expanding M F u b := ⟨fun g hg => .single ⟨b, hb, hg⟩, hu⟩
  by_contra hnever
  push Not at hnever
  have grows : ∀ k, ∃ n, k ≤ (bodyBefore s succeeds M F b n).code.copies := by
    intro k
    induction k with
    | zero => exact ⟨0, Nat.zero_le _⟩
    | succ k ih =>
      obtain ⟨n, hn⟩ := ih
      obtain ⟨g, hg⟩ := hnever n
      obtain ⟨p, call, hp, hi, _⟩ := hg.elim
      have ht : Tried M F succeeds n p call := (callAt_bodyBefore_iff hF h hb).mp ⟨hp, hi⟩
      obtain ⟨m, hm⟩ := copies_grow hF h hb (s := s) ht (hok n p call ht)
      exact ⟨m, Nat.le_trans (Nat.succ_le_succ hn) hm⟩
  obtain ⟨n, hn⟩ := grows (u.copies + 1)
  have hunfolds : Expanding M F u (bodyBefore s succeeds M F b n) := h.bodyBefore hF n
  have hle := hunfolds.unfolds.copies_le
  omega

end Progress

/-! ## When the loop ends -/

/-- The loop ends, and the marked calls it leaves are calls it tried and that were refused. -/
def EndsWithRefused (s : Schedule) (succeeds : Nat → Path → Bool) (M : Module) (F : String) :
    Prop :=
  ∃ fuel M', inlineFunctions s succeeds M F fuel = some M' ∧
    ∀ b p call, M'.bodyOf F = some b → b.code.callAt p = some call →
      call.inlinable M = true → ∃ r, Tried M F succeeds r p call ∧ succeeds r p = false

/-- Of a loop that ends, every call it tries is accepted some time. -/
theorem Tried.accepted {M M' : Module} {F : String} {s : Schedule}
    {succeeds : Nat → Path → Bool} (hF : ¬ ReachesCycle M.Inlines F) {fuel : Nat}
    (h : inlineFunctions s succeeds M F fuel = some M') {r : Nat} {p : Path} {call : CallBase}
    (ht : Tried M F succeeds r p call) : ∃ r' ≥ r, succeeds r' p = true := by
  obtain ⟨b, hb⟩ := ht.defined
  obtain ⟨u, hu⟩ := Unfolds.exists_of_acyclic hF hb
  have hstart : Expanding M F u b := ⟨fun g hg => .single ⟨b, hb, hg⟩, hu⟩
  simp only [inlineFunctions, hb] at h
  obtain ⟨b', hloop, _⟩ := Option.map_eq_some_iff.mp h
  obtain ⟨n, _, hdone⟩ := (inlineLoop_bodyBefore_iff (r := 0)).mp ⟨fuel, b', hloop⟩
  by_contra hrefused
  push Not at hrefused
  have htried : ∃ q site, Tried M F succeeds n q site := by
    rcases Nat.le_total n r with hn | hn
    · exact ht.before hn
    · exact ⟨p, call, ht.stays hn fun m hm _ => Bool.eq_false_iff.mpr (hrefused m hm)⟩
  obtain ⟨q, site, hsite⟩ := htried
  obtain ⟨hq, hi⟩ := (callAt_bodyBefore_iff hF hstart hb (s := s)).mpr hsite
  obtain ⟨_, g, hg, _⟩ := CallBase.inlinable_iff.mp hi
  exact hdone g (.intro hq hi hg)

/-- The loop ends if and only if no call is refused in every round from the one that first
tries it. -/
theorem endsWithRefused_iff {M : Module} {F : String} (hF : ¬ ReachesCycle M.Inlines F)
    (s : Schedule) (succeeds : Nat → Path → Bool) :
    EndsWithRefused s succeeds M F ↔
      ∀ r p call, Tried M F succeeds r p call → ∃ r' ≥ r, succeeds r' p = true := by
  constructor
  · rintro ⟨fuel, M', h, _⟩ r p call ht
    exact ht.accepted hF h
  · intro hok
    cases hb : M.bodyOf F with
    | none =>
      refine ⟨0, M, by simp [inlineFunctions, hb], fun b p call hb' => ?_⟩
      simp [hb] at hb'
    | some b =>
      obtain ⟨n, hn⟩ := exists_bodyBefore_done hF hb hok (s := s)
      obtain ⟨fuel, b', hloop⟩ :=
        (inlineLoop_bodyBefore_iff (r := 0)).mpr ⟨n, Nat.zero_le n, hn⟩
      obtain ⟨f, hf, _⟩ := Option.bind_eq_some_iff.mp hb
      have hbody : (M.setBody F b').bodyOf F = some b' := Module.bodyOf_setBody_self hf
      refine ⟨fuel, M.setBody F b', ?_, fun b₁ p call hb₁ hp hi => ?_⟩
      · simp only [inlineFunctions, hb]
        exact congrArg (Option.map (M.setBody F)) hloop
      · -- a loop that ends leaves no marked call at all
        obtain rfl := Option.some.inj (hbody.symm.trans hb₁)
        obtain ⟨_, g, hg, _⟩ := CallBase.inlinable_iff.mp hi
        exact absurd (.intro hp hi hg) ((inlineLoop_result hloop).1 g)

theorem endsWithRefused_iff_nested :
    EndsWithRefused .inOrder (fun round _ => decide (2 ≤ round)) nestedModule "main" ↔
      ∀ r p call, Tried nestedModule "main" (fun round _ => decide (2 ≤ round)) r p call →
        ∃ r' ≥ r, decide (2 ≤ r') = true :=
  endsWithRefused_iff nestedModule_acyclic .inOrder fun round _ => decide (2 ≤ round)

/-- LLVM refuses every call, for instance because the functions use different garbage
collectors: the loop collects the same calls round after round. -/
theorem refused_calls_never_end : ¬ ∀ M F, ¬ ReachesCycle M.Inlines F →
    ∀ s succeeds, EndsWithRefused s succeeds M F := by
  intro hall
  obtain ⟨fuel, M', h, _⟩ := hall nestedModule "main" nestedModule_acyclic .inOrder
    fun _ _ => false
  have hmain : nestedModule.Inlines "main" "helper" :=
    Module.inlines_iff.mpr (by decide +kernel)
  obtain ⟨b, hb, hmark⟩ := hmain
  obtain ⟨p, call, hp, hi, _⟩ := hmark.elim
  obtain ⟨r, _, hok⟩ := (Tried.own hb hp hi).accepted nestedModule_acyclic h
  exact Bool.false_ne_true hok

end Squanchy
