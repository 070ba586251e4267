import Squanchy.Attributes

/-!
# Inlining in two modules

What `inlineFunctions` makes of a function depends on the body of that function and on those of
the functions that carry `AlwaysInline`. The marks of call sites do not matter: two modules that
differ elsewhere and in marks give the same rounds, and the same code up to marks.
-/

namespace Squanchy

/-! ## Code up to marks -/

section Code

variable {c c' : Code}

/-- A test that looks through marks finds the same calls. -/
theorem callSites_unmark {q : CallBase → Bool}
    (hq : ∀ call : CallBase, q { call with alwaysInline := false } = q call) (c : Code) :
    c.unmark.callSites q = c.callSites q := by
  induction c with
  | stop => rfl
  | label l k ih => simp only [Code.unmark, Code.callSites, ih]
  | instr i k ih => cases i <;> simp only [Code.unmark, Instr.unmark, Code.callSites, hq, ih]
  | inlined dst args b k ihb ihk => simp only [Code.unmark, Code.callSites, ihb, ihk]

/-- Copies of the same code, up to marks. -/
theorem unmark_inlineFunction {bodyOf bodyOf' : String → Option Body} {p : Path}
    (hcopy : ∀ call g, c.callAt p = some call → call.namedCallee = some g →
      (bodyOf g).map (·.code.unmark) = (bodyOf' g).map (·.code.unmark))
    (h : c.unmark = c'.unmark) :
    (c.inlineFunction bodyOf p).unmark = (c'.inlineFunction bodyOf' p).unmark := by
  induction c generalizing p c' with
  | stop =>
    cases c' <;> simp [Code.unmark] at h
    rcases p with _ | ⟨_ | _, p⟩ <;> rfl
  | label l k ih =>
    cases c' <;> simp [Code.unmark] at h
    obtain ⟨rfl, hk⟩ := h
    rcases p with _ | ⟨_ | _, p⟩
    · simp [Code.inlineFunction, Code.unmark, hk]
    · simpa [Code.inlineFunction, Code.unmark] using ih hcopy hk
    · simp [Code.inlineFunction, Code.unmark, hk]
  | instr i k ih =>
    cases c' with
    | instr i' k' =>
      obtain ⟨hi, hk⟩ := Code.instr.inj h
      rcases p with _ | ⟨_ | _, p⟩
      · -- the call itself
        cases i with
        | simple s => rw [Instr.eq_simple_of_unmark hi]; simp [Code.inlineFunction, Code.unmark, hk]
        | term t => rw [Instr.eq_term_of_unmark hi]; simp [Code.inlineFunction, Code.unmark, hk]
        | call call =>
          obtain ⟨a, rfl⟩ := Instr.eq_call_of_unmark hi
          have hcallee : ({ call with alwaysInline := a } : CallBase).namedCallee =
              call.namedCallee := rfl
          simp only [Code.inlineFunction, hcallee]
          cases hg : call.namedCallee with
          | none => simp [Code.unmark, hi, hk]
          | some g =>
            have hbody := hcopy call g rfl hg
            simp only [Option.bind_some]
            cases hb : bodyOf g <;> cases hb' : bodyOf' g <;> simp [hb, hb'] at hbody
            · simp [Code.unmark, hi, hk]
            · simp [Code.unmark, hbody, hk]
      · simpa [Code.inlineFunction, Code.unmark, hi] using ih hcopy hk
      · cases i <;> cases i' <;> simpa [Code.inlineFunction, Code.unmark] using h
    | _ => simp [Code.unmark] at h
  | inlined dst args b k ihb ihk =>
    cases c' <;> simp [Code.unmark] at h
    obtain ⟨rfl, rfl, hb, hk⟩ := h
    rcases p with _ | ⟨_ | _, p⟩
    · simp [Code.inlineFunction, Code.unmark, hb, hk]
    · simpa [Code.inlineFunction, Code.unmark, hb] using ihk hcopy hk
    · simpa [Code.inlineFunction, Code.unmark, hk] using ihb hcopy hb

end Code

/-! ## Modules with the same callees to copy -/

/-- A function that carries `AlwaysInline`, defined or not. -/
def Module.Marked (M : Module) (g : String) : Prop := ∃ a ∈ M.attrsOf g, .alwaysInline ∈ a

theorem Module.inlinee_iff {M : Module} {g : String} :
    M.Inlinee g ↔ M.Marked g ∧ (M.bodyOf g).isSome = true := by
  unfold Inlinee Marked attrsOf bodyOf
  cases M.getFunction g <;> simp

/-- The same functions are marked, and have the same type and the same code up to marks. -/
structure SameInlinees (M M' : Module) : Prop where
  marked : ∀ g, M.Marked g ↔ M'.Marked g
  type : ∀ g, M.Marked g → M.functionType g = M'.functionType g
  code : ∀ g, M.Marked g → (M.bodyOf g).map (·.code.unmark) = (M'.bodyOf g).map (·.code.unmark)

namespace SameInlinees

variable {M M' : Module} {F : String} {b b' : Body}

theorem inlinee (h : SameInlinees M M') (g : String) : M.Inlinee g ↔ M'.Inlinee g := by
  rw [Module.inlinee_iff, Module.inlinee_iff, ← h.marked]
  refine and_congr_right fun hg => ?_
  have := congrArg Option.isSome (h.code g hg)
  simp only [Option.isSome_map] at this
  rw [this]

theorem inlinable (h : SameInlinees M M') (c : CallBase) : c.inlinable M = c.inlinable M' := by
  rw [Bool.eq_iff_iff, CallBase.inlinable_iff, CallBase.inlinable_iff]
  simp only [CallBase.getCalledFunction_eq_some, ← h.inlinee]
  refine and_congr_right fun _ => exists_congr fun g => and_congr_left fun hg => ?_
  rw [h.type g (Module.inlinee_iff.mp hg).1]

/-- The same calls are collected. -/
theorem callSites (h : SameInlinees M M') {c c' : Code} (hc : c.unmark = c'.unmark) :
    c.callSites (·.inlinable M) = c'.callSites (·.inlinable M') := by
  rw [← callSites_unmark (fun _ => rfl) c, hc, callSites_unmark (fun _ => rfl) c']
  exact congrArg c'.callSites (funext h.inlinable)

/-- The function itself gets the same code up to marks in both. -/
theorem setBody (h : SameInlinees M M') (hF : (M.getFunction F).isSome = true)
    (hF' : (M'.getFunction F).isSome = true) (hb : b.code.unmark = b'.code.unmark) :
    SameInlinees (M.setBody F b) (M'.setBody F b') := by
  have hmarked (M : Module) (b : Body) (g : String) : (M.setBody F b).Marked g ↔ M.Marked g := by
    simp only [Module.Marked, attrsOf_setBody]
  refine ⟨fun g => by rw [hmarked, hmarked, h.marked], fun g hg => ?_, fun g hg => ?_⟩
  · simpa using h.type g ((hmarked M b g).mp hg)
  by_cases hgF : g = F
  · obtain ⟨f, hf⟩ := Option.isSome_iff_exists.mp hF
    obtain ⟨f', hf'⟩ := Option.isSome_iff_exists.mp hF'
    rw [hgF, Module.bodyOf_setBody_self hf, Module.bodyOf_setBody_self hf']
    exact congrArg some hb
  · rw [Module.bodyOf_setBody_of_ne hgF, Module.bodyOf_setBody_of_ne hgF]
    exact h.code g ((hmarked M b g).mp hg)

/-! ## The rounds -/

/-- The calls of a round stay where they are until their turn comes. -/
theorem unmark_inlineRound (h : SameInlinees M M') (hF : (M.getFunction F).isSome = true)
    (hF' : (M'.getFunction F).isSome = true) (succeeds : Path → Bool) {sites : List Path}
    (hnd : sites.Nodup)
    (hsites : ∀ p ∈ sites, ∃ c, b.code.callAt p = some c ∧ c.inlinable M = true)
    (hb : b.code.unmark = b'.code.unmark) :
    (inlineRound M F succeeds sites b).code.unmark =
      (inlineRound M' F succeeds sites b').code.unmark := by
  induction sites generalizing b b' with
  | nil => exact hb
  | cons p sites ih =>
    obtain ⟨hp, hnd⟩ := List.nodup_cons.mp hnd
    obtain ⟨hsite, hsites⟩ := List.forall_mem_cons.mp hsites
    simp only [inlineRound, List.foldl_cons]
    split
    · refine ih hnd (fun p' hp' => ?_) ?_
      · obtain ⟨c, hc, hinl⟩ := hsites p' hp'
        exact ⟨c, Code.callAt_inlineFunction_of_ne hc (by rintro rfl; exact hp hp'), hinl⟩
      · refine unmark_inlineFunction (fun call g hcall hg => ?_) hb
        obtain ⟨c, hc, hinl⟩ := hsite
        obtain rfl := Option.some.inj (hc.symm.trans hcall)
        obtain ⟨-, g', hg', hinlinee⟩ := CallBase.inlinable_iff.mp hinl
        obtain rfl := Option.some.inj (hg.symm.trans (CallBase.named hg'))
        refine (h.setBody hF hF' hb).code g ?_
        obtain ⟨a, ha, hmem⟩ := (Module.inlinee_iff.mp hinlinee).1
        exact ⟨a, by rwa [attrsOf_setBody], hmem⟩
    · exact ih hnd hsites hb

theorem unmark_inlineLoop (h : SameInlinees M M') (hF : (M.getFunction F).isSome = true)
    (hF' : (M'.getFunction F).isSome = true) (s : Schedule) (succeeds : Nat → Path → Bool)
    (fuel round : Nat) (hb : b.code.unmark = b'.code.unmark) :
    (inlineLoop s succeeds M F fuel round b).map (·.code.unmark) =
      (inlineLoop s succeeds M' F fuel round b').map (·.code.unmark) := by
  induction fuel generalizing b b' round with
  | zero => rfl
  | succ fuel ih =>
    have hsites := h.callSites hb
    have hperm := s.perm round (b.code.callSites (·.inlinable M))
    have hround := h.unmark_inlineRound hF hF' (succeeds round)
      (hperm.symm.nodup (Code.nodup_callSites _ _))
      (fun p hp => Code.mem_callSites.mp (hperm.subset hp)) hb
    simp only [inlineLoop, ← hsites]
    split
    · exact congrArg some hround
    · exact ih (round + 1) hround

end SameInlinees

end Squanchy
