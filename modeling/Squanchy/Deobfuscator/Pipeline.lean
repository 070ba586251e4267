import Squanchy.Deobfuscator.Preserved
import Squanchy.FuncrefTable
import Squanchy.Instance.Meaning

/-!
# The whole tool keeps what a function does

`deobfuscateFunctions` processes the listed functions one after the other. Each of them is
linked with the runtime, receives an instance of its own, has callees copied in, and loses its
inline assembly and the stores that use the function table. With the optimizers off nothing
else happens to the code. A processed function stands for the original on a fresh instance,
as long as the original reaches no listed function and reads back nothing of what is deleted.
-/

namespace Squanchy

open Library

/-! ## Runs that the tool keeps -/

/-- The store uses the function table, and is deleted where it is found. -/
def StoreSite.usesFuncRefTable (site : StoreSite) : Bool :=
  site.value.isFuncRefTable || site.ptr.isFuncRefTable

instance : LawfulBEq Addr := inferInstanceAs (LawfulBEq (Loc × Int))

/-- Follow the cells whose last write used the table. The run is rejected when it calls a
function of `X`, reads such a cell, or stores there through what is no pointer. -/
def followStale (X : List String) (stale : List Addr) (e : Traced) : Option (List Addr) :=
  match e.2 with
  | .call _ g _ => if g ∈ X then none else some stale
  | .member _ _ => some stale
  | .read at_ => if ∃ a ∈ at_, a ∈ stale then none else some stale
  | .write (some site) at_ =>
    some (if site.usesFuncRefTable then at_ ++ stale else stale.filter (· ∉ at_))
  | .write none at_ => some (stale.filter (· ∉ at_))
  | .fault site => if site.usesFuncRefTable then none else some stale

/-- The run calls no function of `X`, and reads nothing that was written by a store that the
tool deletes. -/
def Clear (X : List String) (t : List Traced) : Prop :=
  (t.foldlM (followStale X) []).isSome = true

instance (X : List String) (t : List Traced) : Decidable (Clear X t) :=
  inferInstanceAs (Decidable (_ = true))

theorem Clear.of_isPrefix {X : List String} {t t' : List Traced} (h : Clear X t') (hp : t <+: t') :
    Clear X t := by
  obtain ⟨rest, rfl⟩ := hp
  obtain ⟨stale, hstale⟩ := Option.isSome_iff_exists.mp h
  rw [List.foldlM_append] at hstale
  obtain ⟨stale', h', _⟩ := Option.bind_eq_some_iff.mp hstale
  simp [Clear, h']

/-- What a run shows to others: the functions that it calls through pointers or outside the
module, the fields that it addresses, and the cells that it writes and that are kept. -/
def effectOf (M : Module) (e : Traced) : Option Event :=
  match e.2 with
  | .call direct g args =>
    if direct.isSome && (M.bodyOf g).isSome then none else some (.call direct g args)
  | .member struct base => some (.member struct base)
  | .read _ => none
  | .write (some site) at_ =>
    if site.usesFuncRefTable || at_ = [] then none else some (.write none at_)
  | .write none at_ => if at_ = [] then none else some (.write none at_)
  | .fault _ => none

def effects (M : Module) (t : List Traced) : List Event := t.filterMap (effectOf M)

def clearRuns (M : Module) (X : List String) : Comparison Traced (List Addr) Event where
  watch := followStale X
  view := effectOf M

/-! ## What the tool may delete -/

/-- A barrier, or a store that uses the table. -/
def Instr.Droppable (m : Machine) (i : Instr) : Prop :=
  i.IsBarrier m ∨ i.usesFuncRefTable = true

theorem AgreeOff.mono {stale stale' : List Addr} {h h' : Heap} (hh : AgreeOff stale h h')
    (hsub : stale ⊆ stale') : AgreeOff stale' h h' :=
  ⟨hh.next, fun a ha => hh.mem a fun hs => ha (hsub hs)⟩

/-- A write on both sides, of a deleted store or not. -/
theorem AgreeOff.write_both {X : List String} {stale stale' : List Addr} {h h' : Heap}
    {site : Option StoreSite} {ws : List (Addr × Val)} (blocks : Nat)
    (hw : followStale X stale (own (.write site (ws.map Prod.fst))) = some stale')
    (hh : AgreeOff stale h h') :
    AgreeOff stale' { h.writes ws with next := h.next + blocks }
      { h'.writes ws with next := h'.next + blocks } := by
  have hkept := hh.writes ws
  suffices hsub : stale.filter (· ∉ ws.map Prod.fst) ⊆ stale' from
    ⟨congrArg (· + blocks) hh.next, (hkept.mono hsub).mem⟩
  cases site with
  | none => exact Option.some.inj hw ▸ List.Subset.refl _
  | some site =>
    simp only [followStale, own, Option.some.injEq] at hw
    subst hw
    split
    · exact fun a ha => List.mem_append_right _ (List.mem_of_mem_filter ha)
    · exact List.Subset.refl _

/-- The deleted store, against nothing. -/
theorem step_droppable {m : Machine} {M : Module} {X : List String} {s : Simple}
    (hs : Instr.usesFuncRefTable (.simple s) = true) (fn : String) (fr : Frame)
    {stale : List Addr} {h h' : Heap} (hh : AgreeOff stale h h') :
    Run.Sim (clearRuns M X) (fun d' x (_ : Unit) => x.1 = fr ∧ AgreeOff d' x.2 h') stale
      (s.step m fn fr h) (.pure ()) := by
  cases s with
  | store ty v p =>
    have hsite : StoreSite.usesFuncRefTable ⟨fn, v, p⟩ = true := hs
    simp only [Simple.step]
    split
    · rename_i l off _
      refine .emit_left (by simp [clearRuns, effectOf, own, hsite]) fun stale' hw => .pure ⟨rfl, ?_⟩
      simp only [clearRuns, List.foldlM_cons, followStale, own, hsite, if_true] at hw
      have hwrites := hh.writes_left ((cells l off (m.encode ty (v.eval fr)).length).zip
        (m.encode ty (v.eval fr)))
      rw [map_fst_zip_cells] at hwrites
      exact Option.some.inj hw ▸ hwrites
    · exact .rejected (by simp [clearRuns, followStale, own, hsite])
  | _ => simp [Instr.usesFuncRefTable] at hs

theorem follows_clearRuns (m : Machine) (M : Module) (X : List String) :
    Follows m M X (Instr.Droppable m) (clearRuns M X) AgreeOff where
  watch_deeper _ _ := rfl
  view_deeper _ := rfl
  view_copied hb _ := by simp [clearRuns, effectOf, own, hb]
  storesAlike _ _ := ⟨fun _ _ _ => rfl, fun _ _ => rfl⟩
  view_reads _ _ _ := rfl
  next hh := hh.next
  alloc hh := hh.alloc
  call hw hh := by
    simp only [clearRuns, followStale, own] at hw
    split at hw
    · cases hw
    · rename_i hg
      exact ⟨hg, Option.some.inj hw ▸ hh⟩
  member hw hh := Option.some.inj hw ▸ hh
  read hw hh := by
    simp only [clearRuns, followStale, own] at hw
    split at hw
    · cases hw
    · rename_i hfresh
      exact ⟨Option.some.inj hw ▸ hh, fun a ha => hh.mem a fun hs => hfresh ⟨a, ha, hs⟩⟩
  write blocks hw hh := hh.write_both blocks hw
  deleted_simple fn fr hs hh := by
    rcases hs with hs | hs
    · exact hs.elim
    · exact step_droppable hs fn fr hh
  deleted_call := by
    rintro c (⟨hdst, t, ht, hquiet⟩ | hc)
    · refine ⟨t, ht, hdst, fun {stale h h'} args hh => ?_⟩
      obtain ⟨hreads, v, heffect⟩ := hquiet args h
      simp only [Host.run, heffect, hreads]
      refine .emit_left rfl fun _ hd => .emit_left (by simp [clearRuns, effectOf, own])
        fun _ hd' => .pure ?_
      simp only [clearRuns, List.foldlM_cons, followStale, own] at hd hd'
      simp at hd hd'
      subst hd hd'
      exact ⟨hh.next, hh.mem⟩
    · cases hc
  deleted_term t := by
    rintro (ht | ht)
    · exact ht
    · cases ht

/-! ## Where a store stands does not matter -/

/-- Whether a store uses the table is all that the tool asks about it. -/
def SameUse (s s' : StoreSite) : Prop := s.usesFuncRefTable = s'.usesFuncRefTable

def StoreSite.shadow (site : StoreSite) : StoreSite where
  fn := ""
  value := if site.usesFuncRefTable then .global "FUNCREF_TABLE" else .null
  ptr := .null

theorem usesFuncRefTable_shadow (site : StoreSite) :
    site.shadow.usesFuncRefTable = site.usesFuncRefTable := by
  unfold StoreSite.shadow
  cases site.usesFuncRefTable <;> rfl

/-- The event without the place that it comes from. -/
def Event.shadow : Event → Event
  | .write (some site) at_ => .write (some site.shadow) at_
  | .fault site => .fault site.shadow
  | e => e

/-- Accept every run, and look at all of it but the places of its stores. -/
def shadows : Comparison Traced Unit Event where
  watch _ _ := some ()
  view e := some e.2.shadow

theorem blind_shadows : Blind SameUse shadows where
  watch_deeper _ _ := rfl
  view_deeper _ := rfl
  view_write _ hs := by simp [shadows, own, Event.shadow, StoreSite.shadow, show _ = _ from hs]
  view_fault hs := by simp [shadows, own, Event.shadow, StoreSite.shadow, show _ = _ from hs]

theorem sameUse_replaceArg0 (w : Nat) (fn : String) (d : Nat) (v p : Operand) :
    SameUse ⟨fn, v, p⟩ ⟨fn, replaceArg0 w d v, replaceArg0 w d p⟩ := by
  have keeps (o : Operand) : (replaceArg0 w d o).isFuncRefTable = o.isFuncRefTable := by
    unfold replaceArg0
    split
    · rename_i ho
      rw [ho]
      rfl
    · rfl
  simp [SameUse, StoreSite.usesFuncRefTable, keeps]

theorem followStale_shadow (X : List String) (stale : List Addr) (e : Traced) :
    followStale X stale e = followStale X stale (own e.2.shadow) := by
  obtain ⟨n, e⟩ := e
  rcases e with _ | _ | _ | ⟨_ | site, at_⟩ | site <;>
    simp [followStale, Event.shadow, own, usesFuncRefTable_shadow]

theorem effectOf_shadow (M : Module) (e : Traced) :
    effectOf M e = effectOf M (own e.2.shadow) := by
  obtain ⟨n, e⟩ := e
  rcases e with _ | _ | _ | ⟨_ | site, at_⟩ | site <;>
    simp [effectOf, Event.shadow, own, usesFuncRefTable_shadow]

/-- The run calls no defined function by its name with another type. -/
def CallsTyped (M : Module) (t : List Traced) : Prop := ∀ e ∈ t, e.2.mistyped M = false

section Shadows

variable {t t' : List Traced}

theorem map_shadow_eq (h : t.filterMap shadows.view = t'.filterMap shadows.view) :
    t.map (·.2.shadow) = t'.map (·.2.shadow) := by
  have hmap (t : List Traced) : t.filterMap shadows.view = t.map (·.2.shadow) :=
    congrFun (List.filterMap_eq_map (f := fun e : Traced => e.2.shadow)) t
  rw [← hmap, ← hmap, h]

theorem followStale_congr (h : t.map (·.2.shadow) = t'.map (·.2.shadow)) (X : List String)
    (stale : List Addr) :
    t.foldlM (followStale X) stale = t'.foldlM (followStale X) stale := by
  have hfold (t : List Traced) : t.foldlM (followStale X) stale =
      (t.map (·.2.shadow)).foldlM (fun d e => followStale X d (own e)) stale := by
    rw [List.foldlM_map]
    exact congrArg (t.foldlM · stale) (funext₂ (followStale_shadow X))
  rw [hfold, hfold, h]

theorem Clear.congr {X : List String} (h : t.map (·.2.shadow) = t'.map (·.2.shadow))
    (ht : Clear X t) : Clear X t' := by
  rwa [Clear, ← followStale_congr h]

theorem ReadsNone.congr {G : String → Bool} (h : t.map (·.2.shadow) = t'.map (·.2.shadow))
    (ht : ReadsNone G t) : ReadsNone G t' := by
  have hshadow (e : Event) : e.shadow.reads G = e.reads G := by
    rcases e with _ | _ | _ | ⟨_ | _, _⟩ | _ <;> rfl
  intro e' he'
  obtain ⟨e, he, heq⟩ := List.mem_map.mp (h ▸ List.mem_map_of_mem he')
  rw [← hshadow, ← heq, hshadow]
  exact ht e he

theorem CallsTyped.congr {M : Module} (h : t.map (·.2.shadow) = t'.map (·.2.shadow))
    (ht : CallsTyped M t) : CallsTyped M t' := by
  have hshadow (e : Event) : e.shadow.mistyped M = e.mistyped M := by
    rcases e with _ | _ | _ | ⟨_ | _, _⟩ | _ <;> rfl
  intro e' he'
  obtain ⟨e, he, heq⟩ := List.mem_map.mp (h ▸ List.mem_map_of_mem he')
  rw [← hshadow, ← heq, hshadow]
  exact ht e he

theorem mistyped_of_effectOf {M : Module} {e : Traced} {e' : Event}
    (h : effectOf M e = some e') (he' : e'.mistyped M = true) : e.2.mistyped M = true := by
  obtain ⟨n, e⟩ := e
  rcases e with ⟨_ | _, _, _⟩ | _ | _ | ⟨_ | _, _⟩ | _ <;> grind [effectOf, Event.mistyped]

theorem effects_congr {M : Module} (h : t.map (·.2.shadow) = t'.map (·.2.shadow)) :
    effects M t = effects M t' := by
  have hmap (t : List Traced) :
      effects M t = (t.map (·.2.shadow)).filterMap fun e => effectOf M (own e) := by
    rw [List.filterMap_map]
    exact congrArg (t.filterMap ·) (funext (effectOf_shadow M))
  rw [hmap, hmap, h]

end Shadows

/-! ## The steps of one function -/

/-- The code that copies are put into. -/
def Options.Starts (o : Options) (L : Module) (c c' : Code) : Prop :=
  if o.InjectInitializer then ∃ STEnv ST ty,
    L.functionType "wasm2c_squanchy_instantiate" = some ty ∧
    c' = c.withInitializer STEnv ST "wasm2c_squanchy_instantiate" ty
  else c' = c

/-- The inline assembly of the module consists of barriers. -/
def Module.AsmBarriers (m : Machine) (M : Module) : Prop :=
  ∀ g b, M.bodyOf g = some b → ∀ x ∈ b.code.instrs 0, x.2.isAsmCall = true → x.2.IsBarrier m

/-- Only inline assembly turns into inline assembly. -/
theorem callee_eq_of_isInlineAsm {w d : Nat} {c : CallBase}
    (h : (c.mapOperands (replaceArg0 w d)).isInlineAsm = true) :
    (c.mapOperands (replaceArg0 w d)).callee = c.callee := by
  rcases keepsCallee_replaceArg0 w d c with hsame | ⟨_, hlocal⟩
  · exact hsame
  · unfold CallBase.isInlineAsm at h
    split at h
    · rename_i t ht
      rw [show replaceArg0 w d c.callee = .asm t from ht] at hlocal
      cases hlocal
    · cases h

namespace Options.Starts

variable {o : Options} {L : Module} {c c' : Code}

/-- Marks of the original are marks of what it starts. -/
theorem of_unmark_eq {c₁ : Code} (h : o.Starts L c₁ c') (he : c.unmark = c₁.unmark) :
    ∃ c'', o.Starts L c c'' ∧ c''.unmark = c'.unmark := by
  unfold Options.Starts at h ⊢
  split at h
  · rename_i ho
    obtain ⟨STEnv, ST, ty, hty, rfl⟩ := h
    exact ⟨_, by rw [if_pos ho]; exact ⟨STEnv, ST, ty, hty, rfl⟩, unmark_withInitializer he _ _ _ _⟩
  · rename_i ho
    exact ⟨c, by rw [if_neg ho], h ▸ he⟩

theorem inScope (h : o.Starts L c c') (hc : c.inScope 0 = true) : c'.inScope 0 = true := by
  unfold Options.Starts at h
  split at h
  · obtain ⟨STEnv, ST, ty, _, rfl⟩ := h
    exact Code.inScope_withInitializer hc
  · rwa [h]

/-- The injection adds no inline assembly, and leaves that of the code alone. -/
theorem asmBarriers {m : Machine} (h : o.Starts L c c')
    (hc : ∀ x ∈ c.instrs 0, x.2.isAsmCall = true → x.2.IsBarrier m) :
    ∀ x ∈ c'.instrs 0, x.2.isAsmCall = true → x.2.IsBarrier m := by
  unfold Options.Starts at h
  split at h
  · obtain ⟨STEnv, ST, ty, _, rfl⟩ := h
    intro x hx hasm
    simp only [Code.withInitializer, Code.instrs, Code.mapOperands, Code.instrs_mapInstrs,
      List.mem_cons, List.mem_map] at hx
    rcases hx with rfl | rfl | rfl | ⟨⟨d, i⟩, hi, rfl⟩
    · cases hasm
    · cases hasm
    · cases hasm
    · cases i with
      | call c₀ =>
        simp only [Instr.mapOperands, Instr.isAsmCall, Bool.and_eq_true] at hasm
        have hsame := callee_eq_of_isInlineAsm hasm.2
        have hold : Instr.isAsmCall (.call c₀) = true := by
          simp only [CallBase.isInlineAsm, hsame] at hasm
          exact Bool.and_eq_true_iff.mpr hasm
        obtain ⟨hdst, t, ht, hquiet⟩ := hc (d, .call c₀) hi hold
        exact ⟨hdst, t, hsame.trans ht, hquiet⟩
      | _ => cases hasm
  · rwa [h]

end Options.Starts

/-- An optimizer that returns at once. -/
theorem sameCode_runOn {F : String} {M M' : Module} (h : runOn .skip F M = .ok M') :
    SameCode [] M M' ∧ M'.functionType = M.functionType := by
  obtain ⟨b, hb, rfl⟩ := runOn_skip.mp h
  obtain ⟨f, hf, _⟩ := Option.bind_eq_some_iff.mp hb
  refine ⟨fun g _ => ?_, M.functionType_setBody F b⟩
  by_cases hg : g = F
  · subst hg
    rw [Module.bodyOf_setBody_self hf, hb]
  · rw [Module.bodyOf_setBody_of_ne hg]

/-- What has become of the linked module `L` once the functions of `done` were processed. -/
structure Deobfuscated (o : Options) (m : Machine) (L : Module) (X done : List String)
    (M' : Module) : Prop where
  types : M'.functionType = L.functionType
  others : SameCode done L M'
  rewritten : ∀ F ∈ done, ∃ b c b', L.bodyOf F = some b ∧ o.Starts L b.code c ∧
    M'.bodyOf F = some b' ∧ Rewritten L X (Instr.Droppable m) c b'.code

namespace Deobfuscated

variable {o : Options} {m : Machine} {L R M M' M'' : Module} {X done : List String} {F : String}

theorem sameCode (h : Deobfuscated o m L X done M') (h' : SameCode [] M' M'')
    (htypes : M''.functionType = M'.functionType) : Deobfuscated o m L X done M'' where
  types := htypes.trans h.types
  others := h.others.trans fun g _ => h' g (by simp)
  rewritten F hF := by
    obtain ⟨b, c, b', hb, hstart, hb', hc⟩ := h.rewritten F hF
    have := h' F (by simp)
    rw [hb'] at this
    obtain ⟨b'', hb'', he⟩ := Option.map_eq_some_iff.mp this.symm
    exact ⟨b, c, b'', hb, hstart, hb'', hc.congr_right he.symm⟩

theorem runOn_skip (h : Deobfuscated o m L X done M') (hM'' : runOn .skip F M' = .ok M'') :
    Deobfuscated o m L X done M'' :=
  h.sameCode (sameCode_runOn hM'').1 (sameCode_runOn hM'').2

/-- Deleting droppable instructions of a processed function. -/
theorem eraseInstrs (h : Deobfuscated o m L X done M') {p : Instr → Bool}
    (hp : ∀ i i' : Instr, i.unmark = i'.unmark → p i = p i')
    (hL : ∀ g b, L.bodyOf g = some b → ∀ x ∈ b.code.instrs 0, p x.2 = true → x.2.Droppable m)
    (hstart : ∀ b c, L.bodyOf F = some b → o.Starts L b.code c →
      ∀ x ∈ c.instrs 0, p x.2 = true → x.2.Droppable m)
    (hF : F ∈ done) (htypes : M''.functionType = M'.functionType)
    (hM'' : ∀ g, (M''.bodyOf g).map (·.code) =
      (M'.bodyOf g).map fun b => if g = F then b.code.eraseInstrs p else b.code) :
    Deobfuscated o m L X done M'' := by
  refine ⟨htypes.trans h.types, fun g hg => ?_, fun G hG => ?_⟩
  · have hgF : g ≠ F := fun hgF => hg (hgF ▸ hF)
    have hcode := congrArg (·.map Code.unmark) (hM'' g)
    simp only [hgF, if_false, Option.map_map] at hcode
    exact (h.others g hg).trans hcode.symm
  · obtain ⟨b, c, b', hb, hstarts, hb', hc⟩ := h.rewritten G hG
    have hcode := hM'' G
    rw [hb'] at hcode
    obtain ⟨b'', hb'', he⟩ := Option.map_eq_some_iff.mp hcode
    refine ⟨b, c, b'', hb, hstarts, hb'', ?_⟩
    rw [he]
    split
    · rename_i hGF
      subst hGF
      exact hc.eraseInstrs hp hL (hstart b c hb hstarts)
    · exact hc

theorem removeCallASMSideEffects (h : Deobfuscated o m L X done M') (hL : L.AsmBarriers m)
    (hF : F ∈ done) : Deobfuscated o m L X done (Squanchy.removeCallASMSideEffects F M') := by
  refine h.eraseInstrs (p := Instr.isAsmCall) (F := F) (fun _ _ => Instr.isAsmCall_unmark)
    (fun g b hb x hx hasm => .inl (hL g b hb x hx hasm))
    (fun b c hb hstart x hx hasm => .inl (hstart.asmBarriers (hL F b hb) x hx hasm)) hF
    (functionType_removeCallASMSideEffects F M') fun g => ?_
  have hget := Module.getFunction_modify M' F
    (fun f => { f with body := f.body.map (·.eraseInstrs Instr.isAsmCall) }) (fun _ => rfl) g
  rw [Module.bodyOf, Squanchy.removeCallASMSideEffects, hget, Module.bodyOf]
  by_cases hg : g = F
  · simp only [hg, if_true]
    rcases M'.getFunction F with _ | ⟨_, _, _, _, _ | _, _, _⟩ <;> rfl
  · simp [hg]

theorem replaceFUNCREF_TABLE (h : Deobfuscated o m L X done M')
    (hM'' : Squanchy.replaceFUNCREF_TABLE F M' = .ok M'') (hF : F ∈ done) :
    Deobfuscated o m L X done M'' := by
  have hunmark (i i' : Instr) (hi : i.unmark = i'.unmark) :
      i.usesFuncRefTable = i'.usesFuncRefTable := by
    cases i with
    | simple s => rw [Instr.eq_simple_of_unmark hi]
    | call c =>
      obtain ⟨a, rfl⟩ := Instr.eq_call_of_unmark hi
      rfl
    | term t => rw [Instr.eq_term_of_unmark hi]
  rcases keptIn_of_ok hM'' with rfl | hkept
  · exact h
  · exact h.eraseInstrs hunmark (fun _ _ _ _ _ hx => .inr hx)
      (fun _ _ _ _ _ _ hx => .inr hx) hF (functionType_replaceFUNCREF_TABLE hM'') hkept

/-- Marks, injection and inlining of one function more. -/
theorem start {s : Schedule} {succeeds : Nat → Path → Bool} {fuel : Nat} {M₁ M₂ M₃ : Module}
    (h : Deobfuscated o m L X done M₁) (hF : F ∉ done) (hFX : F ∈ X) (hdone : ∀ g ∈ done, g ∈ X)
    (hbody : (M₁.bodyOf F).isSome = true)
    (hM₂ : whenSet o.InjectInitializer (injectInitializer o.ModuleName · F) M₁ = .ok M₂)
    (hM₃ : inlineFunctions s succeeds M₂ F fuel = some M₃) :
    Deobfuscated o m L X (F :: done) M₃ := by
  obtain ⟨b₁, hb₁⟩ := Option.isSome_iff_exists.mp hbody
  obtain ⟨f₁, hf₁, _⟩ := Option.bind_eq_some_iff.mp hb₁
  obtain ⟨b, hb, hcode⟩ := Progress.bodyOf_of_sameCode h.others hF hb₁
  -- what the option leaves of the other functions, and makes of `F`
  obtain ⟨b₂, hb₂, hstart₂, hother, htypes⟩ : ∃ b₂, M₂.bodyOf F = some b₂ ∧
      o.Starts L b₁.code b₂.code ∧ (∀ g, g ≠ F → M₂.bodyOf g = M₁.bodyOf g) ∧
      M₂.functionType = L.functionType := by
    unfold Options.Starts
    unfold whenSet at hM₂
    split at hM₂
    · rename_i ho
      obtain ⟨b₁', STEnv, ST, ty, hb₁', hty, rfl⟩ := injectInitializer_ok hM₂
      obtain rfl := Option.some.inj (hb₁.symm.trans hb₁')
      refine ⟨_, Module.bodyOf_setBody_self hf₁, ?_, fun g hg => Module.bodyOf_setBody_of_ne hg,
        (M₁.functionType_setBody F _).trans h.types⟩
      rw [if_pos ho]
      exact ⟨STEnv, ST, ty, h.types ▸ hty, rfl⟩
    · rename_i ho
      obtain rfl := Except.ok.inj hM₂
      exact ⟨b₁, hb₁, by rw [if_neg ho], fun _ _ => rfl, h.types⟩
  obtain ⟨c, hstart, hc⟩ := hstart₂.of_unmark_eq hcode
  have hsees : Copied.Sees L X M₂ := by
    intro g b' hg hb'
    rw [hother g (by rintro rfl; exact hg hFX)] at hb'
    obtain ⟨b, hb, he⟩ := Progress.bodyOf_of_sameCode h.others (fun hd => hg (hdone g hd)) hb'
    exact ⟨b, hb, .of_unmark_eq he⟩
  obtain ⟨b₃, rfl, hb₃⟩ := Copied.inlineFunctions hFX hsees s succeeds hb₂
    (Copied.of_unmark_eq hc) hM₃
  obtain ⟨f₂, hf₂, _⟩ := Option.bind_eq_some_iff.mp hb₂
  refine ⟨(M₂.functionType_setBody F b₃).trans htypes, fun g hg => ?_, fun G hG => ?_⟩
  · obtain ⟨hgF, hgd⟩ := not_or.mp fun h => hg (List.mem_cons.mpr h)
    rw [Module.bodyOf_setBody_of_ne hgF, hother g hgF]
    exact h.others g hgd
  · by_cases hGF : G = F
    · subst hGF
      exact ⟨b, c, b₃, hb, hstart, Module.bodyOf_setBody_self hf₂, .of_copied hb₃⟩
    · rw [Module.bodyOf_setBody_of_ne hGF, hother G hGF]
      exact h.rewritten G ((List.mem_cons.mp hG).resolve_left hGF)

/-- Linking the runtime once more. -/
theorem link (h : Deobfuscated o m L X done M')
    (hL : L = linkRuntime M R) (hdone : ∀ g ∈ done, R.bodyOf g = none) :
    Deobfuscated o m L X done (linkRuntime M' R) := by
  subst hL
  have hR (g : String) (b : Body) (hb : R.bodyOf g = some b) :
      (linkRuntime M R).bodyOf g = some b := by
    rw [bodyOf_linkRuntime, hb, Option.some_or]
  refine ⟨functionType_relink h.types, h.others.relink hR, fun F hF => ?_⟩
  have hbody : (linkRuntime M' R).bodyOf F = M'.bodyOf F := by
    rw [bodyOf_linkRuntime, hdone F hF, Option.none_or]
  rw [hbody]
  exact h.rewritten F hF

theorem deobfuscateFunction {I : InlineRuns} (hasm : L.AsmBarriers m)
    (hrefs : o.ReplaceInstanceRefs = false) (hF : F ∉ done) (hFX : F ∈ X)
    (hdone : ∀ g ∈ done, g ∈ X)
    (h : Deobfuscated o m L X done (linkRuntime (removeOptNone F M') R))
    (hM'' : Squanchy.deobfuscateFunction o .off I R M' F = .ok M'') :
    Deobfuscated o m L X (F :: done) M'' ∧ R.bodyOf F = none := by
  obtain ⟨N, hN, hM''⟩ := bind_eq_ok.mp hM''
  simp only [prepareFunction, bind_eq_ok, orThrow_eq_ok, require_eq_ok, pure_eq_ok] at hN
  obtain ⟨f, hf, b, hb, _, _, _, hR, M₁, hM₁, M₂, hM₂, rfl⟩ := hN
  rw [Option.isNone_iff_eq_none] at hR
  refine ⟨?_, hR⟩
  -- steps 1 to 7
  have hmarks := h.sameCode (.setFunctionsAlwayInline [] o.ModuleName _)
    (functionType_setFunctionsAlwayInline o.ModuleName _)
  have hbody : ((setFunctionsAlwayInline o.ModuleName
      (linkRuntime (removeOptNone F M') R)).bodyOf F).isSome = true := by
    have hmarked := SameCode.setFunctionsAlwayInline [] o.ModuleName
      (linkRuntime (removeOptNone F M') R)
    have hopt := SameCode.removeOptNone (X := []) F M'
    rw [hmarked.isSome_bodyOf List.not_mem_nil, bodyOf_linkRuntime, hR, Option.none_or,
      hopt.isSome_bodyOf List.not_mem_nil]
    simp [Module.bodyOf, hf, hb]
  have hprepared := (((hmarks.start hF hFX hdone hbody hM₁ hM₂).removeCallASMSideEffects hasm
    List.mem_cons_self).sameCode (.setNoInline [] F _) (functionType_setNoInline F _))
  -- steps 8 to 12
  simp only [optimizeAndReplace, bind_eq_ok, whenSet, hrefs, Bool.false_eq_true, if_false,
    Except.ok.injEq] at hM''
  obtain ⟨N₁, hN₁, N₂, hN₂, N₃, hN₃, _, rfl, N₄, hN₄, hN₅⟩ := hM''
  exact (((hprepared.runOn_skip hN₁).runOn_skip hN₂).runOn_skip hN₃).replaceFUNCREF_TABLE hN₄
    List.mem_cons_self |>.runOn_skip hN₅

theorem deobfuscateFunctions {I : InlineRuns} {names : List String} (hasm : L.AsmBarriers m)
    (hrefs : o.ReplaceInstanceRefs = false)
    (hL : L = linkRuntime M R) (hRdone : ∀ g ∈ done, R.bodyOf g = none)
    (h : Deobfuscated o m L X done M') (hnd : (names ++ done).Nodup)
    (hX : ∀ g ∈ names ++ done, g ∈ X)
    (hM'' : Squanchy.deobfuscateFunctions o .off I R M' names = .ok M'') :
    ∃ done', (∀ F, F ∈ done' ↔ F ∈ names ∨ F ∈ done) ∧ Deobfuscated o m L X done' M'' := by
  induction names generalizing M' done with
  | nil =>
    obtain rfl : M' = M'' := by simpa [Squanchy.deobfuscateFunctions] using hM''
    exact ⟨done, by simp, h⟩
  | cons F names ih =>
    simp only [Squanchy.deobfuscateFunctions, List.foldlM_cons, bind_eq_ok] at hM''
    obtain ⟨M₁, hM₁, hrest⟩ := hM''
    have hperm : (F :: (names ++ done)).Perm (names ++ F :: done) := List.perm_middle.symm
    have hF : F ∉ done := fun hd => (List.nodup_cons.mp hnd).1 (List.mem_append_right _ hd)
    have hlinked := (h.sameCode (.removeOptNone F M') (functionType_removeOptNone F M')).link
      hL hRdone
    obtain ⟨hstep, hRF⟩ := hlinked.deobfuscateFunction hasm hrefs hF (hX F (by simp))
      (fun g hg => hX g (by simp [hg])) hM₁
    obtain ⟨done', hmem, hp⟩ := ih (List.forall_mem_cons.mpr ⟨hRF, hRdone⟩) hstep
      (hperm.nodup hnd) (fun g hg => hX g (hperm.mem_iff.mpr hg)) hrest
    refine ⟨done', fun G => ?_, hp⟩
    rw [hmem, List.mem_cons, List.mem_cons, or_left_comm, or_assoc]

theorem rewrittenIn (h : Deobfuscated o m L X done M') (hX : ∀ g ∈ done, g ∈ X) :
    L.RewrittenIn X (Instr.Droppable m) M' :=
  (h.others.mono hX).rewrittenIn

end Deobfuscated

/-- A run over at least one name, from the module as it was. -/
theorem deobfuscated_of_ok {o : Options} {m : Machine} {I : InlineRuns} {R M M' : Module}
    {names : List String} (hasm : (linkRuntime M R).AsmBarriers m)
    (hrefs : o.ReplaceInstanceRefs = false) (hnd : names.Nodup) (hne : names ≠ [])
    (hM' : deobfuscateFunctions o .off I R M names = .ok M') :
    ∃ done, (∀ F, F ∈ done ↔ F ∈ names) ∧ Deobfuscated o m (linkRuntime M R) names done M' := by
  cases names with
  | nil => exact absurd rfl hne
  | cons F names =>
    simp only [deobfuscateFunctions, List.foldlM_cons, bind_eq_ok] at hM'
    obtain ⟨M₁, hM₁, hrest⟩ := hM'
    have hopt : SameCode [] (linkRuntime M R) (linkRuntime (removeOptNone F M) R) :=
      (SameCode.removeOptNone F M).linkRuntime R
    have hstart : Deobfuscated o m (linkRuntime M R) (F :: names) [] (linkRuntime M R) :=
      ⟨rfl, fun _ _ => rfl, by simp⟩
    have htypes : (linkRuntime (removeOptNone F M) R).functionType =
        (linkRuntime M R).functionType := by
      funext n
      rw [functionType_linkRuntime, functionType_removeOptNone, functionType_linkRuntime]
    obtain ⟨hstep, hRF⟩ := (hstart.sameCode hopt htypes).deobfuscateFunction hasm hrefs
      List.not_mem_nil List.mem_cons_self (by simp) hM₁
    obtain ⟨done, hmem, hp⟩ := hstep.deobfuscateFunctions hasm hrefs rfl (by simpa using hRF)
      (by rwa [← List.perm_append_singleton F names |>.nodup_iff] at hnd)
      (fun g hg => by simpa [or_comm] using hg) hrest
    refine ⟨done, fun G => ?_, hp⟩
    rw [hmem, List.mem_singleton, List.mem_cons, or_comm]

/-! ## The theorem -/

/-- The run that a processed function stands for: the original on a fresh instance, or just the
original where no instance is injected. -/
def originalCall (o : Options) (m : Machine) (L : Module) (F : String) (p : Val)
    (args : List Val) (h : Heap) (n : Nat) : Run Traced (Val × Heap) :=
  if o.InjectInitializer then callOnFreshInstance m L F args h n
  else callFunction m L F (p :: args) h n

/-- `g` stands for `f`: it returns, traps and diverges alike, it never shows an effect that `f`
does not show, and where `f` ends, `g` shows all of its effects. -/
structure StandsFor (M : Module) (f g : Nat → Run Traced (Val × Heap)) : Prop where
  agree : Agree Prod.fst f g
  shows : ∀ n, effects M (g n).trace <+: effects M (f n).trace
  ended : ∀ n, (f n).result ≠ .timeout →
    ∃ n', effects M (f n).trace = effects M (g n').trace ∧ SameEnd (f n) (g n')

theorem StandsFor.of_between {M : Module} {f f' g : Nat → Run Traced (Val × Heap)}
    (h : ∀ n, Run.Le (f n) (f' n)) (h' : ∀ n, Run.Le (f' n) (f (n + 1)))
    (h₀ : (g 0).trace = [] ∧ (g 0).result = .timeout)
    (hg : ∀ n, effects M (f' n).trace = effects M (g (n + 1)).trace ∧ SameEnd (f' n) (g (n + 1))) :
    StandsFor M f g where
  agree := by
    refine .of_related (fun n hn => ⟨n + 1, ?_⟩) ?_
    · rw [(h n).eq_of_ne_timeout hn]
      exact (hg n).2
    · rintro (_ | n) hn
      · exact absurd h₀.2 hn
      · have hended := mt (hg n).2.timeout_iff.mp hn
        exact ⟨n + 1, (h' n).eq_of_ne_timeout hended ▸ (hg n).2⟩
  shows n := by
    rcases n with _ | n
    · rw [h₀.1]
      exact List.nil_prefix
    · rw [← (hg n).1]
      refine List.IsPrefix.filterMap _ ?_
      obtain heq | ⟨_, hp⟩ := h' n
      · rw [heq]
      · exact hp
  ended n hn := by
    rw [(h n).eq_of_ne_timeout hn]
    exact ⟨n + 1, hg n⟩

section Theorem

variable {o : Options} {m : Machine} {L : Module} {F : String} {p : Val} {args : List Val}
  {h : Heap}

/-- The original call with one more unit of fuel for the function, as the processed function
has it. -/
def originalCall' (o : Options) (m : Machine) (L : Module) (F : String) (p : Val)
    (args : List Val) (h : Heap) (n : Nat) : Run Traced (Val × Heap) :=
  if o.InjectInitializer then callOnFreshInstance' m L F args h n
  else callFunction m L F (p :: args) h (n + 1)

theorem originalCall_le (o : Options) (m : Machine) (L : Module) (F : String) (p : Val)
    (args : List Val) (h : Heap) (n : Nat) :
    Run.Le (originalCall o m L F p args h n) (originalCall' o m L F p args h n) ∧
      Run.Le (originalCall' o m L F p args h n) (originalCall o m L F p args h (n + 1)) := by
  unfold originalCall originalCall'
  split
  · exact callOnFreshInstance_le F args h n
  · exact ⟨callFunction_ascending m L F _ h n, .refl _⟩

theorem originalCall'_isPrefix (o : Options) (m : Machine) (L : Module) (F : String) (p : Val)
    (args : List Val) (h : Heap) (n : Nat) :
    (originalCall' o m L F p args h n).trace <+:
      (originalCall o m L F p args h (n + 1)).trace := by
  obtain heq | ⟨_, hpre⟩ := (originalCall_le o m L F p args h n).2
  · rw [heq]
  · exact hpre

/-- The code that copies are put into does what the original call does. -/
theorem exec_starts {b : Body} {c : Code} (hb : L.bodyOf F = some b) (hc : o.Starts L b.code c)
    (n : Nat) :
    Run.Sim shadows (fun _ => Eq) () (originalCall' o m L F p args h n)
      (exec m L (n + 1) F c c [Scope.enter (p :: args)] h) := by
  unfold Options.Starts at hc
  unfold originalCall'
  split at hc
  · rename_i ho
    obtain ⟨STEnv, ST, ty, hty, rfl⟩ := hc
    rw [if_pos ho]
    exact exec_withInitializerIn blind_shadows sameUse_replaceArg0 hb STEnv ST hty p args () h n
  · rename_i ho
    rw [if_neg ho, hc, callFunction, enter, hb]
    exact .refl (fun _ _ => rfl) _

/-- The processed function simulates the code that copies were put into, and that code does what
the original call does. -/
theorem Deobfuscated.simulates {X done : List String} {M' : Module}
    (hM' : Deobfuscated o m L X done M') (hX : ∀ g ∈ done, g ∈ X) (hF : F ∈ done) (n : Nat) :
    ∃ r : Run Traced (Val × Heap),
      (originalCall' o m L F p args h n).trace.map (·.2.shadow) = r.trace.map (·.2.shadow) ∧
      (originalCall' o m L F p args h n).result = r.result ∧
      ∀ {δ ω : Type} {C : Comparison Traced δ ω} {A : δ → Heap → Heap → Prop} {d : δ} {h' : Heap},
        Follows m L X (Instr.Droppable m) C A → A d h h' →
          Run.Sim C (ReturnsIn A) d r (callFunction m M' F (p :: args) h' (n + 1)) := by
  obtain ⟨b, c, b', hb, hstart, hb', hc⟩ := hM'.rewritten F hF
  have hstarts : Run.Sim shadows (fun _ => Eq) () (originalCall' o m L F p args h n)
      (exec m L (n + 1) F c c [Scope.enter (p :: args)] h) := exec_starts hb hstart n
  have haccepts (t : List Traced) : t.foldlM shadows.watch () = some () := by
    induction t with
    | nil => rfl
    | cons e t ih => exact ih
  obtain ⟨hview, hres⟩ := hstarts () (haccepts _)
  refine ⟨_, map_shadow_eq hview, hres.eq, fun {δ ω C A d h'} hC hA => ?_⟩
  have hclosed : c.Within [Scope.enter (p :: args)] := ⟨by simp, hstart.inScope b.closed⟩
  have hcall : callFunction m M' F (p :: args) h' (n + 1) =
      exec m M' (n + 1) F b'.code b'.code ([Scope.enter (p :: args)] ++ []) h' := by
    simp [Squanchy.callFunction, enter, hb']
  rw [hcall]
  exact exec_rewritten hC (hM'.rewrittenIn hX) (n + 1) F F c b'.code c b'.code
    [Scope.enter (p :: args)] [] d h h' hc hc hclosed hclosed hA

theorem relatedBut_self {G : String → Bool} {h' : Heap} (hh : AgreeBut G h h') :
    relatedBut G AgreeOff [] h h' := ⟨h, ⟨rfl, fun _ _ => rfl⟩, hh⟩

theorem Deobfuscated.callFunction {X done : List String} {M' : Module}
    (hM' : Deobfuscated o m L X done M') (hX : ∀ g ∈ done, g ∈ X) (hF : F ∈ done)
    {G : String → Bool} {h' : Heap} (hh : AgreeBut G h h') {n : Nat}
    (hclear : Clear X (originalCall' o m L F p args h n).trace)
    (hreads : ReadsNone G (originalCall' o m L F p args h n).trace) :
    effects L (originalCall' o m L F p args h n).trace =
        effects L (Squanchy.callFunction m M' F (p :: args) h' (n + 1)).trace ∧
      SameEnd (originalCall' o m L F p args h n)
        (Squanchy.callFunction m M' F (p :: args) h' (n + 1)) := by
  obtain ⟨r, hshadow, hres, hsim⟩ := hM'.simulates hX hF n
  obtain ⟨stale, hstale⟩ := Option.isSome_iff_exists.mp (hclear.congr hshadow)
  obtain ⟨heffects, hend⟩ := hsim ((follows_clearRuns m L X).unread (fun _ => rfl) G)
    (relatedBut_self hh) stale (foldlM_rejecting.mpr ⟨hreads.congr hshadow, hstale⟩)
  refine ⟨(effects_congr hshadow).trans heffects, ?_⟩
  rw [SameEnd, hres]
  exact hend.mono fun _ _ hxy => hxy.1

/-- If the original makes no call of another type by name, the processed function makes none. -/
theorem Deobfuscated.callsTyped {X done : List String} {M' : Module}
    (hM' : Deobfuscated o m L X done M') (hX : ∀ g ∈ done, g ∈ X) (hF : F ∈ done)
    {G : String → Bool} {h' : Heap} (hh : AgreeBut G h h') {n : Nat}
    (hclear : Clear X (originalCall' o m L F p args h n).trace)
    (hreads : ReadsNone G (originalCall' o m L F p args h n).trace)
    (htyped : CallsTyped L (originalCall' o m L F p args h n).trace) :
    CallsTyped L (Squanchy.callFunction m M' F (p :: args) h' (n + 1)).trace := by
  obtain ⟨r, hshadow, _, hsim⟩ := hM'.simulates hX hF n
  obtain ⟨stale, hstale⟩ := Option.isSome_iff_exists.mp (hclear.congr hshadow)
  have hnone : CallsTyped L r.trace := htyped.congr hshadow
  obtain ⟨hview, _⟩ := hsim (((follows_clearRuns m L X).unread (fun _ => rfl) G).typed)
    (relatedBut_self hh) stale
    (foldlM_rejecting.mpr ⟨hnone, foldlM_rejecting.mpr ⟨hreads.congr hshadow, hstale⟩⟩)
  intro e he
  by_contra hmis
  rw [Bool.not_eq_false] at hmis
  -- the call would show, and so be one of the original
  have hshown : e.2 ∈ r.trace.filterMap (showing (·.mistyped L) (clearRuns L X)).view := by
    refine (congrArg (e.2 ∈ ·) hview).mpr (List.mem_filterMap.mpr ⟨e, he, ?_⟩)
    simp [rejecting, showing, hmis]
  rw [filterMap_showing hnone] at hshown
  obtain ⟨e₁, he₁, heff⟩ := List.mem_filterMap.mp hshown
  have hsame := mistyped_of_effectOf heff hmis
  rw [hnone e₁ he₁] at hsame
  cases hsame

/-- What is processed may run where globals hold something else, if the original does not read
them. -/
theorem Deobfuscated.standsFor {X done : List String} {M' : Module}
    (hM' : Deobfuscated o m L X done M') (hX : ∀ g ∈ done, g ∈ X) (hF : F ∈ done)
    {G : String → Bool} {h' : Heap} (hh : AgreeBut G h h')
    (hclear : ∀ n, Clear X (originalCall o m L F p args h n).trace)
    (hreads : ∀ n, ReadsNone G (originalCall o m L F p args h n).trace) :
    StandsFor L (originalCall o m L F p args h)
      (Squanchy.callFunction m M' F (p :: args) h') := by
  have hle := originalCall_le o m L F p args h
  have hpre := originalCall'_isPrefix o m L F p args h
  refine .of_between (fun n => (hle n).1) (fun n => (hle n).2) ?_ fun n =>
    hM'.callFunction hX hF hh ((hclear (n + 1)).of_isPrefix (hpre n))
      ((hreads (n + 1)).of_isPrefix (hpre n))
  obtain ⟨b, c, b', _, _, hb', _⟩ := hM'.rewritten F hF
  simp [Squanchy.callFunction, enter, hb', exec]

/-- The same at every fuel, from the runs of the original alone. -/
theorem Deobfuscated.callsTyped_all {X done : List String} {M' : Module}
    (hM' : Deobfuscated o m L X done M') (hX : ∀ g ∈ done, g ∈ X) (hF : F ∈ done)
    {G : String → Bool} {h' : Heap} (hh : AgreeBut G h h')
    (hclear : ∀ n, Clear X (originalCall o m L F p args h n).trace)
    (hreads : ∀ n, ReadsNone G (originalCall o m L F p args h n).trace)
    (htyped : ∀ n, CallsTyped L (originalCall o m L F p args h n).trace) (n : Nat) :
    CallsTyped L (Squanchy.callFunction m M' F (p :: args) h' n).trace := by
  cases n with
  | zero =>
    obtain ⟨b, c, b', _, _, hb', _⟩ := hM'.rewritten F hF
    simp [Squanchy.callFunction, enter, hb', exec, CallsTyped]
  | succ n =>
    have hpre := originalCall'_isPrefix o m L F p args h n
    exact hM'.callsTyped hX hF hh ((hclear (n + 1)).of_isPrefix hpre)
      ((hreads (n + 1)).of_isPrefix hpre) fun e he => htyped (n + 1) e (hpre.subset he)

/-- With the optimizers off, each listed function stands for its original in the linked module,
as long as the original calls no listed function and reads back nothing that is deleted. -/
theorem deobfuscateFunctions_standsFor {I : InlineRuns} {R M M' : Module} {names : List String}
    (hasm : (linkRuntime M R).AsmBarriers m) (hrefs : o.ReplaceInstanceRefs = false)
    (hnd : names.Nodup) (hM' : deobfuscateFunctions o .off I R M names = .ok M')
    (hF : F ∈ names)
    (hclear : ∀ n, Clear names (originalCall o m (linkRuntime M R) F p args h n).trace) :
    StandsFor (linkRuntime M R) (originalCall o m (linkRuntime M R) F p args h)
      (callFunction m M' F (p :: args) h) := by
  obtain ⟨done, hdone, hp⟩ :=
    deobfuscated_of_ok hasm hrefs hnd (List.ne_nil_of_mem hF) hM'
  exact hp.standsFor (fun g hg => (hdone g).mp hg) ((hdone F).mpr hF) (.refl (fun _ => false) h)
    hclear fun n => readsNone_false _

end Theorem

/-! ## A load through a helper -/

/-- The instance is set up with a value and the address of the table. The function loads the
value through a helper that ends in a barrier. -/
def guardedModule : Module where
  functions := [
    { name := "wasm2c_squanchy_instantiate", params := [.ptr, .ptr],
      body := some
        { entry := "entry"
          code :=
            .instr (.simple (.gep 0 (.struct "struct.w2c_squanchy") (.arg 0 0) [.int 32 0])) <|
            .instr (.simple (.store (.int 32) (.int 32 7) (.reg 0 0))) <|
            .instr (.call { dst := none, functionType := { params := [.ptr] },
                            callee := .func "init_tables", args := [.arg 0 0] }) <|
            .instr (.term (.ret none)) .stop
          closed := rfl } },
    { name := "init_tables", params := [.ptr],
      body := some
        { entry := "entry"
          code :=
            .instr (.simple (.gep 0 (.struct "struct.w2c_squanchy") (.arg 0 0) [.int 32 1])) <|
            .instr (.simple (.store .ptr (.global "FUNCREF_TABLE") (.reg 0 0))) <|
            .instr (.term (.ret none)) .stop
          closed := rfl } },
    { name := "i32_load", params := [.ptr], retTy := .int 32,
      body := some loadBody },
    { name := "w2c_squanchy_f0", params := [.ptr], retTy := .int 32,
      body := some
        { entry := "entry"
          code :=
            .instr (.simple (.gep 0 (.struct "struct.w2c_squanchy") (.arg 0 0) [.int 32 0])) <|
            .instr (.call { dst := some 1,
                            functionType := { params := [.ptr], retTy := .int 32 },
                            callee := .func "i32_load", args := [.reg 0 0] }) <|
            .instr (.term (.ret (some (.reg 0 1)))) .stop
          closed := rfl } }]
  globals := [{ name := "FUNCREF_TABLE", initializer := some (.other "zeroinitializer") }]
  structTypes := ["struct.w2c_squanchy", "struct.w2c_env"]

def trapRuntime : Module where
  functions := [{ name := "wasm_rt_trap", params := [.int 32], body := some returnBody }]

def guardedModuleAfter : Module :=
  (deobfuscateFunctions {} .off (plainRuns 4) trapRuntime guardedModule
    ["w2c_squanchy_f0"]).toOption.getD guardedModule

theorem asmBarriers_guardedModule :
    (linkRuntime guardedModule trapRuntime).AsmBarriers cellMachine := by
  intro g b hb x hx hasm
  have hall : ∀ f ∈ (linkRuntime guardedModule trapRuntime).functions, ∀ x ∈ f.instrs,
      x.2.isAsmCall = true →
        x.2 = .call { dst := none, functionType := { params := [.int 32] }, callee := .asm "",
                      args := [.reg 0 0] } := by
    decide +kernel
  obtain ⟨f, hf, hfb⟩ := Option.bind_eq_some_iff.mp hb
  have hinstrs : x ∈ f.instrs := by simpa [Function.instrs, hfb] using hx
  rw [hall f (List.mem_of_find?_eq_some hf) x hinstrs hasm]
  exact ⟨rfl, "", rfl, quiet_silent⟩

/-- The processed function has lost the barrier and the store, and returns the value. -/
theorem deobfuscateFunctions_standsFor_load :
    StandsFor (linkRuntime guardedModule trapRuntime)
      (originalCall {} cellMachine (linkRuntime guardedModule trapRuntime) "w2c_squanchy_f0" .null
        [] emptyHeap)
      (callFunction cellMachine guardedModuleAfter "w2c_squanchy_f0" [.null] emptyHeap) := by
  have hreturned : returned (originalCall {} cellMachine (linkRuntime guardedModule trapRuntime)
      "w2c_squanchy_f0" .null [] emptyHeap 6) = some (.int 7) := by decide +kernel
  have hclear : Clear ["w2c_squanchy_f0"] (originalCall {} cellMachine
      (linkRuntime guardedModule trapRuntime) "w2c_squanchy_f0" .null [] emptyHeap 6).trace := by
    decide +kernel
  obtain ⟨h, hdone⟩ := returned_eq_some.mp hreturned
  refine deobfuscateFunctions_standsFor (I := plainRuns 4) (M := guardedModule)
    asmBarriers_guardedModule rfl (by simp) (ok_getD (by decide +kernel) _) (by simp) fun n =>
      hclear.of_isPrefix ?_
  exact Ascending.trace_prefix (callOnFreshInstance_ascending _ _ _) (by
    rw [show callOnFreshInstance _ _ _ _ _ 6 = originalCall {} _ _ _ .null _ _ 6 from rfl, hdone]
    simp) n

end Squanchy
