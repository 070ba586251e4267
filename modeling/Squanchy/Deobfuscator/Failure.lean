import Squanchy.Deobfuscator.Extract

/-!
# What a failed extraction leaves

Seven stages of `LLVMExtract` look for names before anything is done to the module. The blocks
of `-bb` are looked for last, when `ExtractGVPass` has deleted the definitions on one side of
the selection and has made the other values visible. A block that is not there is noticed too
late, and the caller goes on with what is left.
-/

namespace Squanchy

open Library Relation

/-! ## What there is to do -/

/-- The two modules have the same symbols, with the same definitions and linkages. -/
structure SameValues (M M' : Module) : Prop where
  globalValues : ∀ y, y ∈ M'.globalValues ↔ y ∈ M.globalValues
  bodyOf : ∀ F, M'.bodyOf F = M.bodyOf F
  initializerOf : ∀ g, M'.initializerOf g = M.initializerOf g
  linkageOf : ∀ y, M'.linkageOf y = M.linkageOf y

theorem SameValues.refl (M : Module) : SameValues M M :=
  ⟨fun _ => Iff.rfl, fun _ => rfl, fun _ => rfl, fun _ => rfl⟩

/-- There is nothing to delete, and all linkages are visible already. -/
structure NothingToExtract (x : ExtractOptions) (M : Module) (selected : GlobalValue → Prop) :
    Prop where
  keepsAll : ∀ y, ¬ M.Deletes selected x.DeleteFn x.KeepConstInit y
  visible : ∀ y l, M.linkageOf y = some l → y.visibleLinkage l = l

section Failure

variable {x : ExtractOptions} {L : ExtractPasses} {M : Module}
  {ExtractFuncs ExtractRegExpGlobals : List String}

theorem bodyOf_extractGV (hL : L.DropsBodies) {GVs : List GlobalValue} {F : String} :
    (L.extractGV GVs x.DeleteFn x.KeepConstInit M).bodyOf F = M.bodyOf F ↔
      ¬ M.Deletes (· ∈ GVs) x.DeleteFn x.KeepConstInit (.function F) := by
  have hside : decide (.function F ∈ GVs) = x.DeleteFn ↔
      (.function F ∈ GVs ↔ x.DeleteFn = true) := by
    cases x.DeleteFn <;> simp
  simp only [hL.extractGV_bodyOf, hside, Module.Deletes, Module.deletable]
  split
  · cases M.bodyOf F <;> simp [*]
  · simp [*]

/-- What is deleted is missed. -/
theorem SameValues.not_deletes (hL : L.DropsBodies) (hE : L.ExtractsGVs) {GVs : List GlobalValue}
    (h : SameValues M (L.extractGV GVs x.DeleteFn x.KeepConstInit M)) (y : GlobalValue) :
    ¬ M.Deletes (· ∈ GVs) x.DeleteFn x.KeepConstInit y := by
  cases y with
  | globalAlias n =>
    intro hdel
    apply hE.deletesAlias _ _ _ _ _ hdel
    rw [h.globalValues, ← isSome_getNamedAlias]
    exact hdel.2
  | global g =>
    intro hdel
    have hnone := (h.initializerOf g).symm.trans (hE.deletesInitializer _ _ _ _ _ hdel)
    have hinit := hdel.2
    simp only [Module.deletable, Option.any_eq_true, Bool.and_eq_true] at hinit
    obtain ⟨v, hv, hsome, _⟩ := hinit
    simp [Module.initializerOf, hv] at hnone
    simp [hnone] at hsome
  | function F => exact (bodyOf_extractGV hL).mp (h.bodyOf F)

theorem NothingToExtract.linkageOf (hE : L.ExtractsGVs) {GVs : List GlobalValue}
    (h : NothingToExtract x M (· ∈ GVs)) {y : GlobalValue} (hy : y ∈ M.globalValues) :
    (L.extractGV GVs x.DeleteFn x.KeepConstInit M).linkageOf y = M.linkageOf y := by
  rw [hE.keepsLinkage _ _ _ _ y hy (h.keepsAll y)]
  cases hl : M.linkageOf y with
  | none => rfl
  | some l => exact congrArg some (h.visible y l hl)

theorem NothingToExtract.globalValues (hE : L.ExtractsGVs) {GVs : List GlobalValue}
    (h : NothingToExtract x M (· ∈ GVs)) (y : GlobalValue) :
    y ∈ (L.extractGV GVs x.DeleteFn x.KeepConstInit M).globalValues ↔ y ∈ M.globalValues := by
  constructor
  · intro hy
    rcases hE.declares _ _ _ _ y hy with hy | ⟨n, hn⟩
    · exact hy
    · exact absurd hn (h.keepsAll _)
  · intro hy
    rwa [← isSome_linkageOf, h.linkageOf hE hy, isSome_linkageOf]

/-- The first pass leaves a module alone exactly if there is nothing to do. -/
theorem sameValues_extractGV (hL : L.DropsBodies) (hE : L.ExtractsGVs) {GVs : List GlobalValue} :
    SameValues M (L.extractGV GVs x.DeleteFn x.KeepConstInit M) ↔
      NothingToExtract x M (· ∈ GVs) := by
  constructor
  · intro hsame
    have hkeeps := hsame.not_deletes hL hE
    refine ⟨hkeeps, fun y l hl => ?_⟩
    have hy : y ∈ M.globalValues := isSome_linkageOf.mp (by simp [hl])
    have hlinkage := hE.keepsLinkage _ _ _ _ y hy (hkeeps y)
    rw [hsame.linkageOf, hl] at hlinkage
    exact (Option.some.inj hlinkage).symm
  · intro h
    refine ⟨h.globalValues hE, fun F => (bodyOf_extractGV hL).mpr (h.keepsAll _),
      fun g => hE.keepsInitializer _ _ _ _ g (h.keepsAll _), fun y => ?_⟩
    by_cases hy : y ∈ M.globalValues
    · exact h.linkageOf hE hy
    · have hnone (M' : Module) (hM' : y ∉ M'.globalValues) : M'.linkageOf y = none := by
        simpa using mt isSome_linkageOf.mp hM'
      rw [hnone M hy, hnone _ (mt (h.globalValues hE y).mp hy)]

/-- The values that the extraction is about: those that the command line asks for, and with
`Recursive` those that calls lead to from them. -/
def Extracted (x : ExtractOptions) (L : ExtractPasses)
    (ExtractFuncs ExtractRegExpGlobals : List String) (Recursive : Bool) (M : Module)
    (y : GlobalValue) : Prop :=
  ∃ z, Wanted x L ExtractFuncs ExtractRegExpGlobals M z ∧
    if Recursive then ReflTransGen (fun a b => b ∈ M.callees a) z y else z = y

/-- A failed extraction leaves the module as it was. -/
def FailureLeavesModule (x : ExtractOptions) (L : ExtractPasses) (M : Module)
    (ExtractFuncs ExtractRegExpGlobals : List String) (Recursive : Bool) : Prop :=
  (LLVMExtract x L M ExtractFuncs ExtractRegExpGlobals Recursive).returned ≠ 0 →
    SameValues M (LLVMExtract x L M ExtractFuncs ExtractRegExpGlobals Recursive).module

/-- A failed extraction leaves the module alone exactly if it fails before the first pass, or
that pass has nothing to do. -/
theorem failureLeavesModule_iff (hL : L.DropsBodies) (hE : L.ExtractsGVs) (Recursive : Bool) :
    FailureLeavesModule x L M ExtractFuncs ExtractRegExpGlobals Recursive ↔
      (Selectable x L ExtractFuncs ExtractRegExpGlobals M.globalValues →
        BlocksExist x L M ∨ NothingToExtract x M
          (Extracted x L ExtractFuncs ExtractRegExpGlobals Recursive M)) := by
  rw [FailureLeavesModule, ne_eq, LLVMExtract_returned hL]
  cases hGVs : extractedGVs x L M ExtractFuncs ExtractRegExpGlobals Recursive with
  | error errs =>
    have hfail := not_selectable_of_error hGVs
    simp only [LLVMExtract, hGVs, hfail, false_and, not_false_eq_true, forall_const,
      IsEmpty.forall_iff, iff_true]
    exact .refl M
  | ok GVs =>
    obtain ⟨hselect, hmem⟩ := extractedGVs_eq_ok hGVs
    have hsel : (· ∈ GVs) = Extracted x L ExtractFuncs ExtractRegExpGlobals Recursive M :=
      funext fun y => propext (hmem y)
    have hblocks : ∀ p ∈ x.ExtractBlocks, .function (splitBlocks p).1 ∈ GVs :=
      fun p hp => blockFunc_mem hGVs hp
    simp only [hselect, true_and, forall_const, ← hsel, ← sameValues_extractGV hL hE]
    simp only [LLVMExtract, hGVs, ← groupBlocks_extractGV hL hblocks]
    cases groupBlocks x L (L.extractGV GVs x.DeleteFn x.KeepConstInit M) <;> simp

end Failure

/-! ## A block that is not there -/

section Example

variable (deleted : GlobalValue → Bool) (keepConstInit : Bool)

def Function.extract (f : Function) : Function :=
  if deleted (.function f.name) && f.body.isSome then
    { f with body := none, linkage := .externalLinkage }
  else { f with linkage := f.linkage.makeVisible }

def GlobalVariable.extract (v : GlobalVariable) : GlobalVariable :=
  if deleted (.global v.name) && v.initializer.isSome && !(keepConstInit && v.isConstant) then
    { v with initializer := none, linkage := .externalLinkage }
  else { v with linkage := (GlobalValue.global v.name).visibleLinkage v.linkage }

/-- The first pass, without the declarations that take the places of aliases. -/
def Module.extract (M : Module) : Module where
  functions := M.functions.map (·.extract deleted)
  globals := M.globals.map (·.extract deleted keepConstInit)
  aliases := (M.aliases.filter fun a => !deleted (.globalAlias a.name)).map fun a =>
    { a with linkage := a.linkage.makeVisible }
  structTypes := M.structTypes
  added := M.added

theorem Module.getFunction_extract (M : Module) (n : String) :
    (M.extract deleted keepConstInit).getFunction n =
      (M.getFunction n).map (·.extract deleted) := by
  have hname : (fun f : Function => f.name == n) ∘ Function.extract deleted =
      fun f => f.name == n := by
    funext f
    dsimp only [Function.comp, Function.extract]
    split <;> rfl
  simp only [getFunction, extract, List.find?_map, hname]

theorem Module.getNamedGlobal_extract (M : Module) (n : String) :
    (M.extract deleted keepConstInit).getNamedGlobal n =
      (M.getNamedGlobal n).map (·.extract deleted keepConstInit) := by
  have hname : (fun v : GlobalVariable => v.name == n) ∘
      GlobalVariable.extract deleted keepConstInit = fun v => v.name == n := by
    funext v
    dsimp only [Function.comp, GlobalVariable.extract]
    split <;> rfl
  simp only [getNamedGlobal, extract, List.find?_map, hname]

theorem Module.getNamedAlias_extract (M : Module) (n : String) :
    (M.extract deleted keepConstInit).getNamedAlias n =
      if deleted (.globalAlias n) then none
      else (M.getNamedAlias n).map fun a => { a with linkage := a.linkage.makeVisible } := by
  have hname : (fun a : GlobalAlias => decide ((!deleted (.globalAlias a.name)) = true ∧
      (a.name == n) = true)) = fun a => !deleted (.globalAlias n) && a.name == n := by
    funext a
    by_cases ha : a.name = n <;> simp [ha]
  simp only [getNamedAlias, extract, List.find?_map, List.find?_filter, Function.comp_def, hname]
  cases deleted (.globalAlias n) <;> simp

variable {deleted keepConstInit}

theorem Module.initializerOf_extract (M : Module) (g : String) :
    (M.extract deleted keepConstInit).initializerOf g =
      if deleted (.global g) && M.deletable keepConstInit (.global g) then none
      else M.initializerOf g := by
  simp only [initializerOf, deletable, M.getNamedGlobal_extract]
  obtain hv | ⟨v, hv⟩ := Option.eq_none_or_eq_some (M.getNamedGlobal g)
  · simp [hv]
  · have hname : v.name = g := getNamedGlobal_name hv
    simp only [hv, Option.map_some, Option.bind_some, Option.any_some, GlobalVariable.extract,
      hname, ← Bool.and_assoc]
    split <;> rfl

theorem Module.linkageOf_extract {M : Module} {y : GlobalValue}
    (hy : (deleted y && M.deletable keepConstInit y) = false) :
    (M.extract deleted keepConstInit).linkageOf y = (M.linkageOf y).map y.visibleLinkage := by
  cases y with
  | globalAlias n =>
    simp only [linkageOf, M.getNamedAlias_extract]
    cases ha : M.getNamedAlias n with
    | none => simp
    | some a =>
      have hkept : deleted (.globalAlias n) = false := by simpa [deletable, ha] using hy
      simp [hkept, GlobalValue.visibleLinkage]
  | global n =>
    simp only [linkageOf, M.getNamedGlobal_extract]
    cases hv : M.getNamedGlobal n with
    | none => rfl
    | some v =>
      have hname : v.name = n := getNamedGlobal_name hv
      simp only [deletable, hv, Option.any_some, ← Bool.and_assoc] at hy
      simp only [Option.map_some, GlobalVariable.extract, hname, hy, Bool.false_eq_true, if_false]
  | function n =>
    simp only [linkageOf, M.getFunction_extract]
    cases hf : M.getFunction n with
    | none => rfl
    | some f =>
      have hname := getFunction_name hf
      simp only [deletable, bodyOf, hf, Option.bind_some] at hy
      simp only [Option.map_some, Function.extract, hname, hy, Bool.false_eq_true, if_false]
      rfl

theorem Module.mem_globalValues_of_extract {M : Module} {y : GlobalValue}
    (hy : y ∈ (M.extract deleted keepConstInit).globalValues) : y ∈ M.globalValues := by
  rw [← isSome_linkageOf] at hy ⊢
  cases y with
  | globalAlias n =>
    simp only [linkageOf, M.getNamedAlias_extract] at hy ⊢
    split at hy <;> simp_all
  | global n => simpa [linkageOf, M.getNamedGlobal_extract] using hy
  | function n => simpa [linkageOf, M.getFunction_extract] using hy

/-- Passes that extract, and find nothing to clean up. The expressions are words followed by
`.*`, for symbols that start so. -/
def plainExtractPasses : ExtractPasses where
  regex r := .ok fun s => startsWith s (String.ofList (r.toList.takeWhile (· != '.')))
  blockNames b := b.entry :: b.code.labels
  alive _ _ := true
  listsFunctions _ := false
  extractGV GVs deleteStuff keepConstInit M :=
    M.extract (fun y => decide (y ∈ GVs) == deleteStuff) keepConstInit
  blockExtractor _ M := M.mapFunctions fun f => { f with body := none }
  globalDCE M := M
  stripDeadDebugInfo M := M
  stripDeadPrototypes M := M

theorem dropsBodies_plainExtractPasses : plainExtractPasses.DropsBodies where
  extractGV_bodyOf GVs del keep M F := by
    simp only [plainExtractPasses, Module.bodyOf, M.getFunction_extract]
    cases hf : M.getFunction F with
    | none => simp
    | some f =>
      have hname := Module.getFunction_name hf
      simp only [Option.map_some, Option.bind_some, Function.extract, hname]
      cases f.body <;> by_cases hside : decide (.function F ∈ GVs) = del <;> simp [hside]

theorem Module.deletes_iff {M : Module} {GVs : List GlobalValue} {del keep : Bool}
    {y : GlobalValue} : M.Deletes (· ∈ GVs) del keep y ↔
      ((decide (y ∈ GVs) == del) && M.deletable keep y) = true := by
  rw [Deletes, Bool.and_eq_true]
  cases del <;> simp

theorem extractsGVs_plainExtractPasses : plainExtractPasses.ExtractsGVs where
  deletesAlias := by
    intro GVs del keep M n hdel
    have hside := (Bool.and_eq_true_iff.mp (Module.deletes_iff.mp hdel)).1
    rw [← isSome_getNamedAlias]
    simp [plainExtractPasses, M.getNamedAlias_extract, hside]
  deletesInitializer := by
    intro GVs del keep M g hdel
    simp only [plainExtractPasses, M.initializerOf_extract, Module.deletes_iff.mp hdel, if_true]
  keepsInitializer := by
    intro GVs del keep M g hkeep
    rw [Module.deletes_iff, Bool.not_eq_true] at hkeep
    simp only [plainExtractPasses, M.initializerOf_extract, hkeep, Bool.false_eq_true, if_false]
  keepsLinkage := by
    intro GVs del keep M y _ hkeep
    rw [Module.deletes_iff, Bool.not_eq_true] at hkeep
    exact Module.linkageOf_extract hkeep
  declares := fun _ _ _ _ _ hy => .inl (Module.mem_globalValues_of_extract hy)

theorem documented_plainExtractPasses : plainExtractPasses.Documented where
  toDropsBodies := dropsBodies_plainExtractPasses
  toExtractsGVs := extractsGVs_plainExtractPasses
  extractGV_getFunction GVs del keep M F hF := by
    simpa [plainExtractPasses, M.getFunction_extract] using hF
  extractGV_getNamedAlias GVs del keep M n hn := by
    simp only [plainExtractPasses, M.getNamedAlias_extract] at hn
    split at hn
    · cases hn
    · simpa using hn
  blockExtractor_bodyOf _ M F _ := by
    have hmap := Module.getFunction_mapFunctions (M := M)
      (f := fun f => { f with body := none }) (fun _ => rfl) F
    refine (congrArg (Option.bind · (·.body)) hmap).trans ?_
    cases M.getFunction F <;> rfl
  blockExtractor_initializerOf _ _ _ := rfl
  blockExtractor_linkageOf _ _ y hy := by
    cases y <;> first | rfl | cases hy
  globalDCE_defines _ _ := (Bool.and_true _).symm
  globalDCE_bodyOf _ _ := .inr rfl
  globalDCE_initializerOf _ _ _ hi _ := .inr hi
  alive _ _ _ _ _ _ := rfl
  strip_defines _ _ := rfl
  strip_bodyOf _ _ := rfl
  strip_initializerOf _ _ := rfl

end Example

/-- A wanted function, and another one. -/
def twoFunctionsModule : Module where
  functions := [{ name := "f", params := [], body := some returnBody },
    { name := "g", params := [], body := some returnBody }]

/-- A block that `f` does not have. -/
def missingBlockOptions : ExtractOptions where
  ExtractBlocks := ["f:loop"]

/-- The command line names a block that is not there. The extraction fails, and what it leaves
has lost the other function. -/
theorem missing_block_loses_function : ¬ ∀ x L M ExtractFuncs ExtractRegExpGlobals Recursive,
    ExtractPasses.DropsBodies L → L.ExtractsGVs →
      FailureLeavesModule x L M ExtractFuncs ExtractRegExpGlobals Recursive := by
  intro hall
  have hsame := hall missingBlockOptions plainExtractPasses twoFunctionsModule ["f"] [] false
    dropsBodies_plainExtractPasses extractsGVs_plainExtractPasses (by decide +kernel)
  have hlost : ((LLVMExtract missingBlockOptions plainExtractPasses twoFunctionsModule ["f"] []
      false).module.bodyOf "g").isSome = false := by decide +kernel
  have hold : (twoFunctionsModule.bodyOf "g").isSome = true := by decide +kernel
  rw [hsame.bodyOf "g", hold] at hlost
  exact absurd hlost (by simp)

theorem failureLeavesModule_iff_missingBlock :
    FailureLeavesModule missingBlockOptions plainExtractPasses twoFunctionsModule ["f"] []
        false ↔
      (Selectable missingBlockOptions plainExtractPasses ["f"] []
          twoFunctionsModule.globalValues →
        BlocksExist missingBlockOptions plainExtractPasses twoFunctionsModule ∨
          NothingToExtract missingBlockOptions twoFunctionsModule
            (Extracted missingBlockOptions plainExtractPasses ["f"] [] false
              twoFunctionsModule)) :=
  failureLeavesModule_iff dropsBodies_plainExtractPasses extractsGVs_plainExtractPasses false

end Squanchy
