import Squanchy.Deobfuscator.Driver
import Squanchy.Deobfuscator.Pipeline

/-!
# Linking the runtime again and again

The runtime is linked before each function that is processed, into a module that has it already.
The linker goes through the functions, the globals and the aliases alike, overriding some of them
and adding what is new. So the first link decides on the symbols, but for those that the optimizers
declare; names stay unique; and a second link with nothing in between changes no symbol. The order
of the symbols is LLVM's business: what is said here about modules is said up to their order.
-/

namespace Squanchy

open Library

/-! ## One table -/

section Table

variable {α : Type} {name : α → String} {place : α → α} {xs ys : List α} {adds : α → Bool}

/-- What is overridden stays in its place, and what is new comes last. -/
def linkTable (name : α → String) (place : α → α) (adds : α → Bool) (xs ys : List α) : List α :=
  xs.map place ++ ys.filter fun w => (xs.find? fun v => name v == name w).isNone && adds w

theorem mem_linkTable_of_new {w : α} (hw : w ∈ ys) (hnew : ∀ v ∈ xs, name v ≠ name w)
    (hadds : adds w = true) : w ∈ linkTable name place adds xs ys := by
  refine List.mem_append_right _ (List.mem_filter.mpr ⟨hw, ?_⟩)
  simpa [hadds] using hnew

/-- Nothing is new in a table that has all that is wanted. -/
theorem filter_new_eq_nil (h : ∀ w ∈ ys, adds w = true → ∃ v ∈ xs, name v = name w) :
    (ys.filter fun w => (xs.find? fun v => name v == name w).isNone && adds w) = [] := by
  refine List.filter_eq_nil_iff.mpr fun w hw hnew => ?_
  simp only [Bool.and_eq_true, Option.isNone_iff_eq_none, List.find?_eq_none, beq_iff_eq] at hnew
  obtain ⟨v, hv, hvw⟩ := h w hw hnew.2
  exact hnew.1 v hv hvw

theorem map_name_linkTable (hname : ∀ v, name (place v) = name v)
    (h : ∀ w ∈ ys, adds w = true → ∃ v ∈ xs, name v = name w) :
    (linkTable name place adds xs ys).map name = xs.map name := by
  rw [linkTable, filter_new_eq_nil h, List.append_nil, List.map_map]
  exact List.map_congr_left fun v _ => hname v

theorem linkTable_idem (hname : ∀ v, name (place v) = name v)
    (hplace : ∀ v, place (place v) = place v) (hself : ∀ w ∈ ys, place w = w) :
    linkTable name place adds (linkTable name place adds xs ys) ys =
      linkTable name place adds xs ys := by
  have hnew : ∀ w ∈ ys, adds w = true →
      ∃ v ∈ linkTable name place adds xs ys, name v = name w := by
    intro w hw hadds
    by_cases hold : ∃ v ∈ xs, name v = name w
    · obtain ⟨v, hv, hvw⟩ := hold
      exact ⟨place v, List.mem_append_left _ (List.mem_map_of_mem hv), (hname v).trans hvw⟩
    · push Not at hold
      exact ⟨w, mem_linkTable_of_new hw hold hadds, rfl⟩
  have hmap : (linkTable name place adds xs ys).map place = linkTable name place adds xs ys := by
    refine (List.map_congr_left fun v hv => ?_).trans (List.map_id _)
    rcases List.mem_append.mp hv with hv | hv
    · obtain ⟨v', _, rfl⟩ := List.mem_map.mp hv
      exact hplace v'
    · exact hself v (List.mem_filter.mp hv).1
  calc linkTable name place adds (linkTable name place adds xs ys) ys
    _ = (linkTable name place adds xs ys).map place := by
      rw [linkTable, filter_new_eq_nil hnew, List.append_nil]
    _ = linkTable name place adds xs ys := hmap

theorem linkTable_map {t : α → α} (hname : ∀ v, name (t v) = name v)
    (hplace : ∀ v, place (t v) = t (place v))
    (hnew : ∀ w ∈ ys, (∀ v ∈ xs, name v ≠ name w) → t w = w) :
    linkTable name place adds (xs.map t) ys = (linkTable name place adds xs ys).map t := by
  have hfind (w : α) : ((xs.map t).find? fun v => name v == name w).isNone =
      (xs.find? fun v => name v == name w).isNone := by
    have hcomp : (fun v => name v == name w) ∘ t = fun v => name v == name w :=
      funext fun v => by rw [Function.comp_apply, hname]
    rw [List.find?_map, hcomp, Option.isNone_map]
  have hold : (xs.map t).map place = (xs.map place).map t := by
    rw [List.map_map, List.map_map]
    exact List.map_congr_left fun v _ => hplace v
  have hnewOnes : (ys.filter fun w => (xs.find? fun v => name v == name w).isNone && adds w).map
      t = ys.filter fun w => (xs.find? fun v => name v == name w).isNone && adds w := by
    refine (List.map_congr_left fun w hw => ?_).trans (List.map_id _)
    obtain ⟨hw, hadded⟩ := List.mem_filter.mp hw
    refine hnew w hw fun v hv => ?_
    have hnone := (Bool.and_eq_true_iff.mp hadded).1
    simp only [Option.isNone_iff_eq_none, List.find?_eq_none, beq_iff_eq] at hnone
    exact hnone v hv
  simp only [linkTable, List.map_append, hfind, hold, hnewOnes]

theorem nodup_linkTable (hname : ∀ v, name (place v) = name v) (hxs : (xs.map name).Nodup)
    (hys : (ys.map name).Nodup) : ((linkTable name place adds xs ys).map name).Nodup := by
  have hplaced : (xs.map place).map name = xs.map name := by
    rw [List.map_map]
    exact List.map_congr_left fun v _ => hname v
  rw [linkTable, List.map_append, hplaced]
  refine List.nodup_append.mpr ⟨hxs, hys.sublist (List.filter_sublist.map name), ?_⟩
  rintro _ hx _ hy rfl
  obtain ⟨v, hv, hvn⟩ := List.mem_map.mp hx
  obtain ⟨w, hw, hwn⟩ := List.mem_map.mp hy
  have hnew := (Bool.and_eq_true_iff.mp (List.mem_filter.mp hw).2).1
  simp only [Option.isNone_iff_eq_none, List.find?_eq_none, beq_iff_eq] at hnew
  exact hnew v hv (hvn.trans hwn.symm)

/-- With unique names, what is found under a name is the thing itself. -/
theorem find?_name_of_nodup (hys : (ys.map name).Nodup) {w : α} (hw : w ∈ ys) :
    ys.find? (fun v => name v == name w) = some w := by
  obtain ⟨v, hv⟩ : ∃ v, ys.find? (fun v => name v == name w) = some v :=
    Option.isSome_iff_exists.mp (List.find?_isSome.mpr ⟨w, hw, beq_self_eq_true _⟩)
  have hname : name v = name w := by simpa using List.find?_some hv
  rw [hv, List.inj_on_of_nodup_map hys (List.mem_of_find?_eq_some hv) hw hname]

end Table

/-! ## The tables of a module -/

section Module

variable {M R : Module}

/-- What stands in the place of a function once the runtime is linked. -/
def Module.overrideFunction (R : Module) (f : Function) : Function :=
  if (R.bodyOf f.name).isSome then (R.getFunction f.name).getD f else f

def Module.overrideAlias (R : Module) (a : GlobalAlias) : GlobalAlias :=
  (R.getNamedAlias a.name).getD a

theorem functions_linkRuntime : (linkRuntime M R).functions =
    linkTable (·.name) R.overrideFunction
      (fun g => (R.bodyOf g.name).isSome || R.refersTo (· == .func g.name))
      M.functions R.functions := rfl

theorem globals_linkRuntime : (linkRuntime M R).globals =
    linkTable (·.name) R.overrideGlobal
      (fun w => w.initializer.isSome || R.refersTo (·.usesGlobal w.name)) M.globals R.globals := rfl

theorem aliases_linkRuntime : (linkRuntime M R).aliases =
    linkTable (·.name) R.overrideAlias (fun _ => true) M.aliases R.aliases := by
  simp [linkRuntime, linkTable, Module.getNamedAlias, Module.overrideAlias]

theorem overrideFunction_name (f : Function) : (R.overrideFunction f).name = f.name := by
  unfold Module.overrideFunction
  split
  · cases hg : R.getFunction f.name with
    | none => rfl
    | some g => exact Module.getFunction_name hg
  · rfl

theorem overrideAlias_name (a : GlobalAlias) : (R.overrideAlias a).name = a.name := by
  unfold Module.overrideAlias
  cases ha : R.getNamedAlias a.name with
  | none => rfl
  | some b => exact Module.getNamedAlias_name ha

theorem overrideFunction_idem (f : Function) :
    R.overrideFunction (R.overrideFunction f) = R.overrideFunction f := by
  rw [Module.overrideFunction, overrideFunction_name]
  split
  · rename_i hbody
    rw [Module.overrideFunction, if_pos hbody]
    cases R.getFunction f.name <;> rfl
  · rfl

theorem overrideAlias_idem (a : GlobalAlias) :
    R.overrideAlias (R.overrideAlias a) = R.overrideAlias a := by
  rw [Module.overrideAlias, overrideAlias_name, Module.overrideAlias]
  cases R.getNamedAlias a.name <;> rfl

theorem overrideGlobal_idem (v : GlobalVariable) :
    R.overrideGlobal (R.overrideGlobal v) = R.overrideGlobal v := by
  have hname := overrideGlobal_name R v
  unfold Module.overrideGlobal at hname ⊢
  rw [hname]
  cases R.getNamedGlobal v.name with
  | none => rfl
  | some w => by_cases hw : w.initializer.isSome = true <;> simp [hw]

/-- The symbols of a module are the names of the three tables. -/
theorem globalValues_eq_names : M.globalValues =
    (M.aliases.map (·.name)).map .globalAlias ++ (M.globals.map (·.name)).map .global ++
      (M.functions.map (·.name)).map .function := by
  simp [Module.globalValues, Function.comp_def]

/-- Names are unique in each of the tables. -/
theorem nodup_globalValues_iff : M.globalValues.Nodup ↔
    (M.aliases.map (·.name)).Nodup ∧ (M.globals.map (·.name)).Nodup ∧
      (M.functions.map (·.name)).Nodup := by
  have halias (ns : List String) : (ns.map GlobalValue.globalAlias).Nodup ↔ ns.Nodup :=
    List.nodup_map_iff fun _ _ => GlobalValue.globalAlias.inj
  have hglobal (ns : List String) : (ns.map GlobalValue.global).Nodup ↔ ns.Nodup :=
    List.nodup_map_iff fun _ _ => GlobalValue.global.inj
  have hfunction (ns : List String) : (ns.map GlobalValue.function).Nodup ↔ ns.Nodup :=
    List.nodup_map_iff fun _ _ => GlobalValue.function.inj
  rw [globalValues_eq_names, List.nodup_append, List.nodup_append, halias, hglobal, hfunction]
  constructor
  · rintro ⟨⟨ha, hg, -⟩, hf, -⟩
    exact ⟨ha, hg, hf⟩
  · -- the tags keep the three tables apart
    rintro ⟨ha, hg, hf⟩
    refine ⟨⟨ha, hg, ?_⟩, hf, ?_⟩ <;> grind

theorem nodup_globalValues_linkRuntime (hM : M.globalValues.Nodup) (hR : R.globalValues.Nodup) :
    (linkRuntime M R).globalValues.Nodup := by
  rw [nodup_globalValues_iff] at hM hR ⊢
  rw [functions_linkRuntime, globals_linkRuntime, aliases_linkRuntime]
  exact ⟨nodup_linkTable overrideAlias_name hM.1 hR.1,
    nodup_linkTable (overrideGlobal_name R) hM.2.1 hR.2.1,
    nodup_linkTable overrideFunction_name hM.2.2 hR.2.2⟩

/-- A module that has what the linker brings keeps its symbols, and their order. -/
theorem globalValues_linkRuntime (h : ∀ y, R.Links y → y ∈ M.globalValues) :
    (linkRuntime M R).globalValues = M.globalValues := by
  have halias : (linkRuntime M R).aliases.map (·.name) = M.aliases.map (·.name) := by
    rw [aliases_linkRuntime]
    refine map_name_linkTable overrideAlias_name fun w hw _ => ?_
    simpa using h (.globalAlias w.name) ⟨w, hw, rfl⟩
  have hglobal : (linkRuntime M R).globals.map (·.name) = M.globals.map (·.name) := by
    rw [globals_linkRuntime]
    refine map_name_linkTable (overrideGlobal_name R) fun w hw hadds => ?_
    simpa using h (.global w.name) ⟨w, hw, rfl, hadds⟩
  have hfunction : (linkRuntime M R).functions.map (·.name) = M.functions.map (·.name) := by
    rw [functions_linkRuntime]
    refine map_name_linkTable overrideFunction_name fun w hw hadds => ?_
    have hfound : (R.getFunction w.name).isSome = true :=
      isSome_getFunction.mpr (function_mem_globalValues.mpr ⟨w, hw, rfl⟩)
    simpa using h (.function w.name) ⟨hfound, by simpa using hadds⟩
  rw [globalValues_eq_names, globalValues_eq_names, halias, hglobal, hfunction]

end Module

/-- Linking a runtime with unique names a second time changes nothing. -/
theorem linkRuntime_idem {M R : Module} (hR : R.globalValues.Nodup) :
    linkRuntime (linkRuntime M R) R = linkRuntime M R := by
  obtain ⟨halias, hglobal, hfunction⟩ := nodup_globalValues_iff.mp hR
  have hstruct : (linkRuntime (linkRuntime M R) R).structTypes = (linkRuntime M R).structTypes := by
    have hnone : R.structTypes.filter (· ∉ (linkRuntime M R).structTypes) = [] := by
      refine List.filter_eq_nil_iff.mpr fun s hs hnew => ?_
      simp only [decide_eq_true_eq] at hnew
      by_cases hM : s ∈ M.structTypes
      · exact hnew (List.mem_append_left _ hM)
      · exact hnew (List.mem_append_right _ (List.mem_filter.mpr ⟨hs, by simpa using hM⟩))
    rw [show (linkRuntime (linkRuntime M R) R).structTypes = (linkRuntime M R).structTypes ++
      R.structTypes.filter (· ∉ (linkRuntime M R).structTypes) from rfl, hnone, List.append_nil]
  have hfunctions : (linkRuntime (linkRuntime M R) R).functions = (linkRuntime M R).functions := by
    rw [functions_linkRuntime, functions_linkRuntime]
    refine linkTable_idem overrideFunction_name overrideFunction_idem fun w hw => ?_
    have hfound : R.getFunction w.name = some w := find?_name_of_nodup hfunction hw
    simp [Module.overrideFunction, hfound]
  have hglobals : (linkRuntime (linkRuntime M R) R).globals = (linkRuntime M R).globals := by
    rw [globals_linkRuntime, globals_linkRuntime]
    refine linkTable_idem (overrideGlobal_name R) overrideGlobal_idem fun w hw => ?_
    have hfound : R.getNamedGlobal w.name = some w := find?_name_of_nodup hglobal hw
    simp [Module.overrideGlobal, hfound]
  have haliases : (linkRuntime (linkRuntime M R) R).aliases = (linkRuntime M R).aliases := by
    rw [aliases_linkRuntime, aliases_linkRuntime]
    refine linkTable_idem overrideAlias_name overrideAlias_idem fun w hw => ?_
    have hfound : R.getNamedAlias w.name = some w := find?_name_of_nodup halias hw
    simp [Module.overrideAlias, hfound]
  exact Module.mk.injEq .. |>.mpr ⟨hfunctions, hglobals, haliases, hstruct, rfl⟩

/-! ## Whole runs -/

/-- The same symbols with the same contents, in whatever order. -/
structure Module.Reordered (M M' : Module) : Prop where
  functions : M.functions.Perm M'.functions
  globals : M.globals.Perm M'.globals
  aliases : M.aliases.Perm M'.aliases
  structTypes : M.structTypes.Perm M'.structTypes
  added : M.added.Perm M'.added

theorem Module.Reordered.refl (M : Module) : M.Reordered M :=
  ⟨.refl _, .refl _, .refl _, .refl _, .refl _⟩

/-- A mark of a function that the runtime does not define is as good before the link as after. -/
theorem linkRuntime_removeOptNone {M R : Module} {F : String}
    (hfound : (M.getFunction F).isSome = true) (hF : R.bodyOf F = none) :
    linkRuntime (removeOptNone F M) R = removeOptNone F (linkRuntime M R) := by
  let mark (g : Function) : Function := if g.name = F then g.removeFnAttr .optimizeNone else g
  have hplace (g : Function) : R.overrideFunction (mark g) = mark (R.overrideFunction g) := by
    by_cases hg : g.name = F
    · simp [mark, Module.overrideFunction, Function.removeFnAttr, hg, hF]
    · simp [mark, overrideFunction_name, hg]
  have hfunctions : (linkRuntime (removeOptNone F M) R).functions =
      (removeOptNone F (linkRuntime M R)).functions := by
    refine (functions_linkRuntime (M := removeOptNone F M)).trans ?_
    refine linkTable_map (t := mark) (fun g => ?_) hplace fun w _ hnew => ?_
    · simp only [mark]
      split <;> rfl
    · obtain ⟨f, hf⟩ := Option.isSome_iff_exists.mp hfound
      refine if_neg fun hw => hnew f (List.mem_of_find?_eq_some hf) ?_
      rw [Module.getFunction_name hf, hw]
  exact Module.mk.injEq .. |>.mpr ⟨hfunctions, rfl, rfl, rfl, rfl⟩

/-- A function that is declared at most cannot be processed. -/
theorem prepareFunction_of_bodyOf_eq_none {o : Options} {I : InlineRuns} {R M : Module}
    {F : String} (hM : M.bodyOf F = none) :
    prepareFunction o I R M F = .error (.undefinedBehaviour "F") := by
  cases hf : M.getFunction F with
  | none => simp [prepareFunction, hf, orThrow]
  | some f =>
    have hbody : f.body = none := by simpa [Module.bodyOf, hf] using hM
    simp [prepareFunction, hf, hbody, orThrow]

theorem prepareFunction_linkRuntime {o : Options} {I : InlineRuns} {R M : Module} {F : String}
    (hR : R.globalValues.Nodup) (hF : R.bodyOf F = none) :
    prepareFunction o I R (linkRuntime M R) F = prepareFunction o I R M F := by
  cases hf : M.getFunction F with
  | none =>
    -- at most a declaration comes in
    have hM : M.bodyOf F = none := by simp [Module.bodyOf, hf]
    rw [prepareFunction_of_bodyOf_eq_none hM, prepareFunction_of_bodyOf_eq_none]
    rw [bodyOf_linkRuntime, hF, hM, Option.none_or]
  | some f =>
    have hfound : (M.getFunction F).isSome = true := by simp [hf]
    have hlinked : (linkRuntime M R).getFunction F = some f := by
      simp [getFunction_linkRuntime, hF, hf]
    have honce : linkRuntime (removeOptNone F (linkRuntime M R)) R =
        linkRuntime (removeOptNone F M) R := by
      rw [← linkRuntime_removeOptNone hfound hF, linkRuntime_idem hR]
    simp only [prepareFunction, hf, hlinked, honce]

/-- It does not matter whether the runtime is linked once more before the whole run. -/
theorem deobfuscateFunctions_linkRuntime {o : Options} {P : Optimizers} {I : InlineRuns}
    {R M : Module} {F : String} (names : List String) (hR : R.globalValues.Nodup)
    (hF : R.bodyOf F = none) :
    Parallel Module.Reordered (deobfuscateFunctions o P I R (linkRuntime M R) (F :: names))
      (deobfuscateFunctions o P I R M (F :: names)) := by
  have hsame : deobfuscateFunctions o P I R (linkRuntime M R) (F :: names) =
      deobfuscateFunctions o P I R M (F :: names) := by
    simp only [deobfuscateFunctions, List.foldlM_cons, deobfuscateFunction,
      prepareFunction_linkRuntime hR hF]
  rw [hsame]
  cases deobfuscateFunctions o P I R M (F :: names) with
  | ok M' => exact .ok (.refl M')
  | error e => exact .error e

theorem deobfuscateFunctions_linkRuntime_guarded :
    Parallel Module.Reordered
      (deobfuscateFunctions {} .off (plainRuns 4) trapRuntime
        (linkRuntime guardedModule trapRuntime) ["w2c_squanchy_f0"])
      (deobfuscateFunctions {} .off (plainRuns 4) trapRuntime guardedModule
        ["w2c_squanchy_f0"]) :=
  deobfuscateFunctions_linkRuntime [] (by decide) (by decide)

theorem globalValues_deobfuscateFunction {o : Options} {P : Optimizers} {I : InlineRuns}
    {R M M' : Module} {F : String} (h : deobfuscateFunction o P I R M F = .ok M') :
    M'.globalValues = (linkRuntime M R).globalValues := by
  obtain ⟨N, hN, hM'⟩ := bind_eq_ok.mp h
  have hchecks : (M.getFunction F).isSome = true ∧ R.bodyOf F = none := by
    simp only [prepareFunction, bind_eq_ok, orThrow_eq_ok, require_eq_ok] at hN
    obtain ⟨f, hf, _, _, _, _, _, hF, _⟩ := hN
    exact ⟨by simp [hf], Option.isNone_iff_eq_none.mp hF⟩
  calc M'.globalValues
    _ = N.globalValues := globalValues_optimizeAndReplace hM'
    _ = (linkRuntime (removeOptNone F M) R).globalValues := globalValues_prepareFunction hN
    _ = (removeOptNone F (linkRuntime M R)).globalValues := by
      rw [linkRuntime_removeOptNone hchecks.1 hchecks.2]
    _ = (linkRuntime M R).globalValues :=
      globalValues_modify (f := (·.removeFnAttr .optimizeNone)) fun _ => rfl

/-! ### The symbols that the optimizers add -/

/-- One of the optimizers adds the symbol for some function. -/
def Optimizers.Adds (P : Optimizers) (s : NewSymbol) : Prop :=
  ∃ Q : FunctionPass,
    (Q = P.optimizeFunction ∨ ∃ b, Q = P.optimizeFunctionWithCustomPipeline b) ∧
      ∃ M f r, Q M f = some r ∧ s ∈ r.added

/-- What stands apart was there before or was added, each symbol once. -/
structure AddedFrom (P : Optimizers) (M M' : Module) : Prop where
  mem : ∀ s ∈ M'.added, s ∈ M.added ∨ P.Adds s
  nodup : (M.added.map NewSymbol.globalValue).Nodup → (M'.added.map NewSymbol.globalValue).Nodup

namespace AddedFrom

variable {P : Optimizers} {M M' M'' : Module}

theorem of_eq (h : M'.added = M.added) : AddedFrom P M M' := ⟨fun _ hs => .inl (h ▸ hs), h ▸ id⟩

theorem trans (h : AddedFrom P M M') (h' : AddedFrom P M' M'') : AddedFrom P M M'' where
  mem s hs := (h'.mem s hs).elim (h.mem s) .inr
  nodup := h'.nodup ∘ h.nodup

theorem foldl_insertSymbol (old : List GlobalValue) (new added : List NewSymbol) :
    (∀ s ∈ new.foldl (insertSymbol old) added, s ∈ added ∨ s ∈ new) ∧
      ((added.map NewSymbol.globalValue).Nodup →
        ((new.foldl (insertSymbol old) added).map NewSymbol.globalValue).Nodup) := by
  induction new generalizing added with
  | nil => exact ⟨fun _ => .inl, id⟩
  | cons s new ih =>
    obtain ⟨hmem, hnodup⟩ := ih (insertSymbol old added s)
    rw [List.foldl_cons]
    by_cases hs : s.globalValue ∈ old ++ added.map (·.globalValue)
    · rw [insertSymbol, if_pos hs] at hmem hnodup ⊢
      exact ⟨fun t ht => (hmem t ht).imp_right (List.mem_cons_of_mem s), hnodup⟩
    · rw [insertSymbol, if_neg hs] at hmem hnodup ⊢
      refine ⟨fun t ht => by simpa [or_assoc] using hmem t ht, fun h => hnodup ?_⟩
      rw [List.map_append, List.map_singleton]
      exact List.nodup_append.mpr ⟨h, List.nodup_singleton _, by
        rintro y hy _ hy' rfl
        exact hs (List.mem_append_right _ (List.mem_singleton.mp hy' ▸ hy))⟩

theorem runOn {Q : FunctionPass} {F : String}
    (hQ : Q = P.optimizeFunction ∨ ∃ b, Q = P.optimizeFunctionWithCustomPipeline b)
    (h : runOn Q F M = .ok M') : AddedFrom P M M' := by
  simp only [Squanchy.runOn, bind_eq_ok, orThrow_eq_ok, pure_eq_ok] at h
  obtain ⟨f, _, r, hr, rfl⟩ := h
  obtain ⟨hmem, hnodup⟩ :=
    foldl_insertSymbol (M.setBody F r.body).globalValues r.added M.added
  exact ⟨fun s hs => (hmem s hs).imp_right fun hs => ⟨Q, hQ, M, f, r, hr, hs⟩, hnodup⟩

end AddedFrom

theorem added_setBody (M : Module) (F : String) (b : Body) : (M.setBody F b).added = M.added := rfl

theorem added_setFunctionsAlwayInline (N : String) (M : Module) :
    (setFunctionsAlwayInline N M).added = M.added := by
  unfold setFunctionsAlwayInline
  induction helperFunctions N generalizing M with
  | nil => rfl
  | cons n names ih =>
    rw [List.foldl_cons, ih]
    unfold setFunctionAlwayInline
    split
    · rfl
    · split <;> rfl

theorem added_prepareFunction {o : Options} {I : InlineRuns} {R M M' : Module} {F : String}
    (h : prepareFunction o I R M F = .ok M') : M'.added = M.added := by
  simp only [prepareFunction, bind_eq_ok, orThrow_eq_ok, require_eq_ok, pure_eq_ok] at h
  obtain ⟨_, _, _, _, _, _, _, _, M₁, h₁, M₂, h₂, rfl⟩ := h
  have hmarked : (setFunctionsAlwayInline o.ModuleName
      (linkRuntime (removeOptNone F M) R)).added = M.added := by
    rw [added_setFunctionsAlwayInline]
    rfl
  have hinject : M₁.added = M.added := by
    unfold whenSet at h₁
    split at h₁
    · obtain ⟨b, _, _, _, _, _, rfl⟩ := injectInitializer_ok h₁
      rw [added_setBody, hmarked]
    · exact Except.ok.inj h₁ ▸ hmarked
  have hinline : M₂.added = M₁.added := by
    unfold inlineFunctions at h₂
    split at h₂
    · rw [Option.some.inj h₂]
    · obtain ⟨b, _, rfl⟩ := Option.map_eq_some_iff.mp h₂
      rw [added_setBody]
  exact hinline.trans hinject

theorem addedFrom_optimizeAndReplace {o : Options} {P : Optimizers} {F : String} {M M' : Module}
    (h : optimizeAndReplace o P M F = .ok M') : AddedFrom P M M' := by
  simp only [optimizeAndReplace, bind_eq_ok] at h
  obtain ⟨M₁, h₁, M₂, h₂, M₃, h₃, M₄, h₄, M₅, h₅, h₆⟩ := h
  have hrefs : AddedFrom P M₃ M₄ := by
    unfold whenSet at h₄
    split at h₄
    · simp only [replaceInstanceRefs, replaceRefsTo, bind_eq_ok, orThrow_eq_ok, pure_eq_ok] at h₄
      obtain ⟨N, ⟨_, _, _, _, rfl⟩, hN⟩ := h₄
      refine AddedFrom.trans ?_ (.runOn (.inl rfl) hN)
      exact .of_eq rfl
    · exact .of_eq (by rw [Except.ok.inj h₄])
  have htable : AddedFrom P M₄ M₅ := by
    unfold replaceFUNCREF_TABLE at h₅
    split at h₅
    · exact .of_eq (by rw [Except.ok.inj h₅])
    · simp only [bind_eq_ok, orThrow_eq_ok, pure_eq_ok] at h₅
      obtain ⟨_, _, _, _, rfl⟩ := h₅
      exact .of_eq rfl
  exact (AddedFrom.runOn (.inr ⟨_, rfl⟩) h₁).trans <| (AddedFrom.runOn (.inl rfl) h₂).trans <|
    (AddedFrom.runOn (.inr ⟨_, rfl⟩) h₃).trans <| hrefs.trans <| htable.trans <|
      .runOn (.inl rfl) h₆

theorem addedFrom_deobfuscateFunctions {o : Options} {P : Optimizers} {I : InlineRuns}
    {R M M' : Module} {names : List String}
    (h : deobfuscateFunctions o P I R M names = .ok M') : AddedFrom P M M' := by
  induction names generalizing M with
  | nil =>
    obtain rfl : M = M' := by simpa [deobfuscateFunctions] using h
    exact .of_eq rfl
  | cons F names ih =>
    simp only [deobfuscateFunctions, List.foldlM_cons, bind_eq_ok] at h
    obtain ⟨M₁, h₁, hrest⟩ := h
    obtain ⟨N, hN, hM₁⟩ := bind_eq_ok.mp h₁
    exact (AddedFrom.of_eq (added_prepareFunction hN)).trans <|
      (addedFrom_optimizeAndReplace hM₁).trans (ih hrest)

/-- Unique names stay unique where the symbols that stand apart come in. -/
theorem nodup_globalValues_withAdded {M : Module} (hM : M.globalValues.Nodup)
    (hadded : (M.added.map NewSymbol.globalValue).Nodup) : M.withAdded.globalValues.Nodup := by
  have hperm (new : List NewSymbol) : (new.map NewSymbol.globalValue).Perm
      ((new.filterMap NewSymbol.asGlobal).map (fun v => .global v.name) ++
        (new.filterMap NewSymbol.asFunction).map fun f => .function f.name) := by
    induction new with
    | nil => exact .refl _
    | cons s new ih =>
      cases s with
      | declaration n t => exact (ih.cons _).trans List.perm_middle.symm
      | constant v => exact ih.cons _
  let new := M.added.filter fun s => s.globalValue ∉ M.globalValues
  have hall : M.withAdded.globalValues.Perm
      (M.globalValues ++ new.map NewSymbol.globalValue) := by
    have hparts : M.withAdded.globalValues = M.aliases.map (.globalAlias ·.name) ++
        ((M.globals ++ new.filterMap NewSymbol.asGlobal).map (.global ·.name) ++
          (M.functions ++ new.filterMap NewSymbol.asFunction).map (.function ·.name)) := rfl
    rw [hparts]
    refine .trans ?_ ((hperm new).symm.append_left _)
    generalize new = new
    simp only [Module.globalValues, List.map_append, List.append_assoc]
    refine List.Perm.append_left _ (List.Perm.append_left _ ?_)
    rw [← List.append_assoc, ← List.append_assoc]
    exact List.perm_append_comm.append_right _
  refine hall.nodup_iff.mpr (List.nodup_append.mpr
    ⟨hM, hadded.sublist (List.filter_sublist.map _), ?_⟩)
  rintro y hy _ hy' rfl
  obtain ⟨s, hs, rfl⟩ := List.mem_map.mp hy'
  simpa [hy] using (List.mem_filter.mp hs).2

/-- The first link and the optimizers decide on the symbols of the whole run. Unique names stay
unique. -/
theorem deobfuscateFunctions_globalValues {o : Options} {P : Optimizers} {I : InlineRuns}
    {R M M' : Module} {names : List String} (hne : names ≠ [])
    (h : deobfuscateFunctions o P I R M names = .ok M') :
    (∀ y, y ∈ M'.withAdded.globalValues ↔
      y ∈ (linkRuntime M R).globalValues ∨ y ∈ M'.added.map NewSymbol.globalValue) ∧
    (∀ s ∈ M'.added, s ∈ M.added ∨ P.Adds s) ∧
    (M.globalValues.Nodup → R.globalValues.Nodup →
      (M.added.map NewSymbol.globalValue).Nodup → M'.withAdded.globalValues.Nodup) := by
  have hlinked {names : List String} {N N' : Module} (hN : ∀ y, R.Links y → y ∈ N.globalValues)
      (h : deobfuscateFunctions o P I R N names = .ok N') :
      N'.globalValues = N.globalValues := by
    induction names generalizing N with
    | nil =>
      obtain rfl : N = N' := by simpa [deobfuscateFunctions] using h
      rfl
    | cons F names ih =>
      simp only [deobfuscateFunctions, List.foldlM_cons, bind_eq_ok] at h
      obtain ⟨N₁, hN₁, hrest⟩ := h
      have hsame : N₁.globalValues = N.globalValues :=
        (globalValues_deobfuscateFunction hN₁).trans (globalValues_linkRuntime hN)
      exact (ih (hsame ▸ hN) hrest).trans hsame
  have hvalues : M'.globalValues = (linkRuntime M R).globalValues := by
    cases names with
    | nil => exact absurd rfl hne
    | cons F names =>
      simp only [deobfuscateFunctions, List.foldlM_cons, bind_eq_ok] at h
      obtain ⟨M₁, hM₁, hrest⟩ := h
      have hfirst := globalValues_deobfuscateFunction hM₁
      refine (hlinked (fun y hy => ?_) hrest).trans hfirst
      rw [hfirst]
      exact mem_globalValues_linkRuntime.mpr (.inr hy)
  have hadded : AddedFrom P M M' := addedFrom_deobfuscateFunctions h
  refine ⟨fun y => ?_, hadded.mem, fun hM hR hnew => ?_⟩
  · rw [Module.mem_globalValues_withAdded, hvalues]
  · exact nodup_globalValues_withAdded (hvalues ▸ nodup_globalValues_linkRuntime hM hR)
      (hadded.nodup hnew)

/-- Optimizers that change nothing but declare a function of LLVM's. -/
def declaringOptimizers : Optimizers where
  optimizeFunction _ f :=
    f.body.map ({ body := ·, added := [.declaration "llvm.assume" { params := [.int 1] }] })
  optimizeFunctionWithCustomPipeline _ := .skip

def declaredModule : Module :=
  (deobfuscateFunctions {} declaringOptimizers (plainRuns 4) trapRuntime guardedModule
    ["w2c_squanchy_f0"]).toOption.getD guardedModule

theorem deobfuscateFunctions_globalValues_guarded :
    (∀ y, y ∈ declaredModule.withAdded.globalValues ↔
      y ∈ (linkRuntime guardedModule trapRuntime).globalValues ∨
        y ∈ declaredModule.added.map NewSymbol.globalValue) ∧
    (∀ s ∈ declaredModule.added, s ∈ guardedModule.added ∨ declaringOptimizers.Adds s) ∧
    (guardedModule.globalValues.Nodup → trapRuntime.globalValues.Nodup →
      (guardedModule.added.map NewSymbol.globalValue).Nodup →
        declaredModule.withAdded.globalValues.Nodup) :=
  deobfuscateFunctions_globalValues (o := {}) (P := declaringOptimizers) (I := plainRuns 4)
    (List.cons_ne_nil "w2c_squanchy_f0" []) (ok_getD (by decide +kernel) _)

example : declaredModule.added.map NewSymbol.globalValue = [.function "llvm.assume"] := by
  decide +kernel

end Squanchy
