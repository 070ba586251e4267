import Squanchy.IR.Syntax
import Squanchy.Library.Except
import Squanchy.Library.Worklist

/-!
# Extracting the results

`LLVMExtract` looks the wanted global values up, follows direct calls from them if asked to,
and hands what it has found to LLVM's passes: one keeps the selected values, one cuts blocks
out into functions, and the last ones clean up. Each stage of the lookup returns 1 as soon as
something is not there. The passes, the regular expressions and the names that LLVM gives to
blocks are parameters; what they are documented to do is stated with them.
-/

namespace Squanchy

open Library Relation

/-- The command line of the extraction, with the identifier of the module. -/
structure ExtractOptions where
  ModuleId : String := ""
  ExtractAliases : List String := []
  ExtractRegExpAliases : List String := []
  ExtractGlobals : List String := []
  ExtractRegExpFuncs : List String := []
  ExtractBlocks : List String := []
  DeleteFn : Bool := false
  KeepConstInit : Bool := false

structure ExtractPasses where
  /-- The matches of a regular expression, or what is wrong with it. -/
  regex : String → Except String (String → Bool)
  blockNames : Body → List String
  /-- What `GlobalDCEPass` finds alive. -/
  alive : Module → GlobalValue → Bool
  /-- An initializer with the addresses of functions in it, as `llvm.global_ctors` has. -/
  listsFunctions : Initializer → Bool
  extractGV : List GlobalValue → (deleteStuff keepConstInit : Bool) → Module → Module
  blockExtractor : List (String × List String) → Module → Module
  globalDCE : Module → Module
  stripDeadDebugInfo : Module → Module
  stripDeadPrototypes : Module → Module

/-! ## The lookup -/

section Select

variable (x : ExtractOptions) (L : ExtractPasses) (M : Module)

/-- `Regex::match`: an invalid expression matches nothing. -/
def ExtractPasses.matches (r s : String) : Bool :=
  match L.regex r with
  | .ok p => p s
  | .error _ => false

def invalidRegex (r : String) : List String :=
  match L.regex r with
  | .ok _ => []
  | .error Error => [x.ModuleId ++ ": '" ++ r ++ "' invalid regex: " ++ Error]

def notFound (kind n : String) : String :=
  x.ModuleId ++ ": program doesn't contain " ++ kind ++ " named '" ++ n ++ "'!\n"

/-- Insert what each of the wanted names stands for, or stop at the first that stands for
nothing. -/
def selectEach (found : String → List GlobalValue) (errs : String → List String)
    (wanted : List String) (GVs : List GlobalValue) :
    Except (List String) (List GlobalValue) :=
  wanted.foldlM (fun GVs n =>
    match found n with
    | [] => .error (errs n)
    | new => .ok (new.foldl insertNew GVs)) GVs

def selectAliases : List GlobalValue → Except (List String) (List GlobalValue) :=
  selectEach (fun n => if (M.getNamedAlias n).isSome then [.globalAlias n] else [])
    (fun n => [notFound x "alias" n]) x.ExtractAliases

def selectRegExpAliases : List GlobalValue → Except (List String) (List GlobalValue) :=
  selectEach (fun r => (M.aliases.filter fun a => L.matches r a.name).map (.globalAlias ·.name))
    (fun r => invalidRegex x L r ++ [notFound x "global" r]) x.ExtractRegExpAliases

def selectGlobals : List GlobalValue → Except (List String) (List GlobalValue) :=
  selectEach (fun n => if (M.getNamedGlobal n).isSome then [.global n] else [])
    (fun n => [notFound x "global" n]) x.ExtractGlobals

def selectRegExpGlobals (ExtractRegExpGlobals : List String) :
    List GlobalValue → Except (List String) (List GlobalValue) :=
  selectEach (fun r => (M.globals.filter fun g => L.matches r g.name).map (.global ·.name))
    (fun r => invalidRegex x L r ++ [notFound x "global" r]) ExtractRegExpGlobals

def selectFuncs (ExtractFuncs : List String) :
    List GlobalValue → Except (List String) (List GlobalValue) :=
  selectEach (fun n => if (M.getFunction n).isSome then [.function n] else [])
    (fun n => [notFound x "function" n]) ExtractFuncs

def selectRegExpFuncs : List GlobalValue → Except (List String) (List GlobalValue) :=
  selectEach (fun r => (M.functions.filter fun f => L.matches r f.name).map (.function ·.name))
    (fun r => invalidRegex x L r ++ [notFound x "global" r]) x.ExtractRegExpFuncs

/-- `split` at the first separator. -/
def splitAtFirst (sep : Char) (s : String) : String × String :=
  (String.ofList (s.toList.takeWhile (· != sep)),
    String.ofList ((s.toList.dropWhile (· != sep)).drop 1))

/-- A pair `function:bb1[;bb2...]`. -/
def splitBlocks (StrPair : String) : String × List String :=
  let BBInfo := splitAtFirst ':' StrPair
  (BBInfo.1, ((BBInfo.2.toList.splitOn ';').map String.ofList).filter (· ≠ ""))

def selectBlockFuncs : List GlobalValue → Except (List String) (List GlobalValue) :=
  selectEach
    (fun p =>
      if (M.getFunction (splitBlocks p).1).isSome then [.function (splitBlocks p).1] else [])
    (fun p => [notFound x "a function" (splitBlocks p).1]) x.ExtractBlocks

/-- All stages of the lookup. -/
def selectGVs (ExtractFuncs ExtractRegExpGlobals : List String) :
    Except (List String) (List GlobalValue) :=
  selectAliases x M [] >>= selectRegExpAliases x L M >>= selectGlobals x M >>=
    selectRegExpGlobals x L M ExtractRegExpGlobals >>= selectFuncs x M ExtractFuncs >>=
    selectRegExpFuncs x L M >>= selectBlockFuncs x M

/-! ## Following calls -/

/-- The defined functions that a function calls directly. -/
def Module.callees (M : Module) : GlobalValue → List GlobalValue
  | .function F =>
    match M.getFunction F with
    | none => []
    | some f => f.instrs.filterMap fun i =>
      match i.2 with
      | .call CB => (CB.getCalledFunction M).bind fun CF =>
        if (M.bodyOf CF).isSome then some (.function CF) else none
      | _ => none
  | _ => []

theorem Module.callees_subset (M : Module) :
    ∀ a, ∀ b ∈ M.callees a, b ∈ M.functions.map (GlobalValue.function ·.name) := by
  intro a b hb
  unfold callees at hb
  split at hb
  · split at hb
    · simp at hb
    · obtain ⟨⟨_, i⟩, _, hi⟩ := List.mem_filterMap.mp hb
      split at hi
      · obtain ⟨CF, _, hCF⟩ := Option.bind_eq_some_iff.mp hi
        split at hCF
        · rename_i hbody
          obtain rfl := Option.some.inj hCF
          obtain ⟨f, hf, _⟩ := Option.bind_eq_some_iff.mp (Option.eq_some_of_isSome hbody)
          exact List.mem_map.mpr ⟨f, List.mem_of_find?_eq_some hf,
            congrArg _ (Module.getFunction_name hf)⟩
        · simp at hCF
      · simp at hi
  · simp at hb

def GlobalValue.isFunction : GlobalValue → Bool
  | .function _ => true
  | _ => false

/-- The work queue of `ExtractRecursive`. Its back is taken first. -/
def closeOverCalls (GVs : List GlobalValue) : List GlobalValue :=
  close M.callees (M.functions.map (GlobalValue.function ·.name)) M.callees_subset GVs
    (GVs.filter GlobalValue.isFunction).reverse

/-! ## The extraction -/

/-- What `LLVMExtract` returns, prints to `errs()` and leaves of the module. -/
structure Extraction where
  returned : Int
  errs : List String
  module : Module

def missingBlock (F BBName : String) : String :=
  x.ModuleId ++ ": function " ++ F ++ " doesn't contain a basic block named '" ++ BBName ++ "'!\n"

/-- The blocks of a pair, in the module that is left of the first pass. -/
def findBlocks (p : String) : Except (List String) (String × List String) :=
  let (F, BBNames) := splitBlocks p
  let blocks := ((M.bodyOf F).map L.blockNames).getD []
  match BBNames.find? (· ∉ blocks) with
  | some BBName => .error [missingBlock x F BBName]
  | none => .ok (F, BBNames)

def groupBlocks : Except (List String) (List (String × List String)) :=
  x.ExtractBlocks.mapM (findBlocks x L M)

/-- The values that the extraction hands to `ExtractGVPass`. -/
def extractedGVs (ExtractFuncs ExtractRegExpGlobals : List String) (Recursive : Bool) :
    Except (List String) (List GlobalValue) :=
  (fun GVs => if Recursive then closeOverCalls M GVs else GVs) <$>
    selectGVs x L M ExtractFuncs ExtractRegExpGlobals

def cutBlocks (GroupOfBBs : List (String × List String)) : Module :=
  if x.ExtractBlocks.isEmpty then M else L.blockExtractor GroupOfBBs M

def cleanUp : Module :=
  let M := if x.DeleteFn then M else L.globalDCE M
  L.stripDeadPrototypes (L.stripDeadDebugInfo M)

def LLVMExtract (ExtractFuncs ExtractRegExpGlobals : List String) (Recursive : Bool) :
    Extraction :=
  match extractedGVs x L M ExtractFuncs ExtractRegExpGlobals Recursive with
  | .error errs => ⟨1, errs, M⟩
  | .ok GVs =>
    let M := L.extractGV GVs x.DeleteFn x.KeepConstInit M
    match groupBlocks x L M with
    | .error errs => ⟨1, errs, M⟩
    | .ok GroupOfBBs => ⟨0, [], cleanUp x L (cutBlocks x L M GroupOfBBs)⟩

end Select

/-! ## What the lookup finds -/

section Lookup

variable {x : ExtractOptions} {L : ExtractPasses} {M : Module}
  {ExtractFuncs ExtractRegExpGlobals : List String}

@[simp] theorem globalAlias_mem_globalValues {n : String} :
    .globalAlias n ∈ M.globalValues ↔ ∃ a ∈ M.aliases, a.name = n := by
  simp [Module.globalValues]

@[simp] theorem global_mem_globalValues {n : String} :
    .global n ∈ M.globalValues ↔ ∃ g ∈ M.globals, g.name = n := by
  simp [Module.globalValues]

@[simp] theorem function_mem_globalValues {n : String} :
    .function n ∈ M.globalValues ↔ ∃ f ∈ M.functions, f.name = n := by
  simp [Module.globalValues]

theorem isSome_getNamedAlias {n : String} :
    (M.getNamedAlias n).isSome = true ↔ .globalAlias n ∈ M.globalValues := by
  simp [Module.getNamedAlias, List.find?_isSome]

theorem isSome_getNamedGlobal {n : String} :
    (M.getNamedGlobal n).isSome = true ↔ .global n ∈ M.globalValues := by
  simp [Module.getNamedGlobal, List.find?_isSome]

theorem isSome_getFunction {n : String} :
    (M.getFunction n).isSome = true ↔ .function n ∈ M.globalValues := by
  simp [Module.getFunction, List.find?_isSome]

/-- A stage succeeds if each wanted name stands for something, and then adds all of that. -/
theorem selectEach_eq_ok {found : String → List GlobalValue} {errs : String → List String}
    {wanted : List String} {GVs GVs' : List GlobalValue}
    (h : selectEach found errs wanted GVs = .ok GVs') :
    (∀ n ∈ wanted, found n ≠ []) ∧ ∀ y, y ∈ GVs' ↔ y ∈ GVs ∨ ∃ n ∈ wanted, y ∈ found n := by
  unfold selectEach at h
  induction wanted generalizing GVs with
  | nil =>
    obtain rfl : GVs = GVs' := by simpa using h
    simp
  | cons n wanted ih =>
    rw [List.foldlM_cons, bind_eq_ok] at h
    obtain ⟨GVs₁, h₁, h₂⟩ := h
    obtain ⟨hall, hmem⟩ := ih h₂
    split at h₁
    · simp at h₁
    · rename_i new hnew
      obtain rfl := Except.ok.inj h₁
      refine ⟨List.forall_mem_cons.mpr ⟨hnew, hall⟩, fun y => ?_⟩
      simp [hmem, mem_foldl_insertNew, or_assoc]

theorem selectEach_isOk {found : String → List GlobalValue} {errs : String → List String}
    {wanted : List String} (GVs : List GlobalValue) (h : ∀ n ∈ wanted, found n ≠ []) :
    ∃ GVs', selectEach found errs wanted GVs = .ok GVs' := by
  unfold selectEach
  induction wanted generalizing GVs with
  | nil => exact ⟨GVs, rfl⟩
  | cons n wanted ih =>
    obtain ⟨hn, hwanted⟩ := List.forall_mem_cons.mp h
    obtain ⟨GVs', hGVs'⟩ := ih ((found n).foldl insertNew GVs) hwanted
    refine ⟨GVs', ?_⟩
    rw [List.foldlM_cons, bind_eq_ok]
    refine ⟨_, ?_, hGVs'⟩
    cases hf : found n with
    | nil => exact absurd hf hn
    | cons a as => rfl

theorem nodup_selectEach {found : String → List GlobalValue} {errs : String → List String}
    {wanted : List String} {GVs GVs' : List GlobalValue}
    (h : selectEach found errs wanted GVs = .ok GVs') (hGVs : GVs.Nodup) : GVs'.Nodup := by
  refine foldlM_keeps (I := fun _ GVs => GVs.Nodup) ?_ hGVs h
  intro n _ GVs GVs₁ hGVs h₁
  split at h₁
  · simp at h₁
  · obtain rfl := Except.ok.inj h₁
    exact nodup_foldl_insertNew hGVs _

/-- The lookup finds nothing twice. -/
theorem nodup_selectGVs {GVs : List GlobalValue}
    (h : selectGVs x L M ExtractFuncs ExtractRegExpGlobals = .ok GVs) : GVs.Nodup := by
  simp only [selectGVs, bind_eq_ok] at h
  obtain ⟨_, ⟨_, ⟨_, ⟨_, ⟨_, ⟨_, h₁, h₂⟩, h₃⟩, h₄⟩, h₅⟩, h₆⟩, h₇⟩ := h
  have hGVs₁ := nodup_selectEach h₁ List.nodup_nil
  have hGVs₂ := nodup_selectEach h₂ hGVs₁
  have hGVs₃ := nodup_selectEach h₃ hGVs₂
  have hGVs₄ := nodup_selectEach h₄ hGVs₃
  have hGVs₅ := nodup_selectEach h₅ hGVs₄
  have hGVs₆ := nodup_selectEach h₆ hGVs₅
  exact nodup_selectEach h₇ hGVs₆

/-- Everything that the command line asks for is among these symbols. -/
structure Selectable (x : ExtractOptions) (L : ExtractPasses)
    (ExtractFuncs ExtractRegExpGlobals : List String) (symbols : List GlobalValue) : Prop where
  aliases : ∀ n ∈ x.ExtractAliases, .globalAlias n ∈ symbols
  regExpAliases : ∀ r ∈ x.ExtractRegExpAliases, ∃ n, .globalAlias n ∈ symbols ∧ L.matches r n = true
  globals : ∀ n ∈ x.ExtractGlobals, .global n ∈ symbols
  regExpGlobals : ∀ r ∈ ExtractRegExpGlobals, ∃ n, .global n ∈ symbols ∧ L.matches r n = true
  funcs : ∀ n ∈ ExtractFuncs, .function n ∈ symbols
  regExpFuncs : ∀ r ∈ x.ExtractRegExpFuncs, ∃ n, .function n ∈ symbols ∧ L.matches r n = true
  blockFuncs : ∀ p ∈ x.ExtractBlocks, .function (splitBlocks p).1 ∈ symbols

/-- A value that the command line asks for. -/
def Wanted (x : ExtractOptions) (L : ExtractPasses)
    (ExtractFuncs ExtractRegExpGlobals : List String) (M : Module) (y : GlobalValue) : Prop :=
  y ∈ M.globalValues ∧
    match y with
    | .globalAlias n => n ∈ x.ExtractAliases ∨ ∃ r ∈ x.ExtractRegExpAliases, L.matches r n = true
    | .global n => n ∈ x.ExtractGlobals ∨ ∃ r ∈ ExtractRegExpGlobals, L.matches r n = true
    | .function n => n ∈ ExtractFuncs ∨ (∃ r ∈ x.ExtractRegExpFuncs, L.matches r n = true) ∨
        ∃ p ∈ x.ExtractBlocks, (splitBlocks p).1 = n

theorem selectGVs_eq_ok {GVs : List GlobalValue}
    (h : selectGVs x L M ExtractFuncs ExtractRegExpGlobals = .ok GVs) :
    Selectable x L ExtractFuncs ExtractRegExpGlobals M.globalValues ∧
      ∀ y, y ∈ GVs ↔ Wanted x L ExtractFuncs ExtractRegExpGlobals M y := by
  simp only [selectGVs, bind_eq_ok] at h
  obtain ⟨_, ⟨_, ⟨_, ⟨_, ⟨_, ⟨_, h₁, h₂⟩, h₃⟩, h₄⟩, h₅⟩, h₆⟩, h₇⟩ := h
  obtain ⟨f₁, m₁⟩ := selectEach_eq_ok h₁
  obtain ⟨f₂, m₂⟩ := selectEach_eq_ok h₂
  obtain ⟨f₃, m₃⟩ := selectEach_eq_ok h₃
  obtain ⟨f₄, m₄⟩ := selectEach_eq_ok h₄
  obtain ⟨f₅, m₅⟩ := selectEach_eq_ok h₅
  obtain ⟨f₆, m₆⟩ := selectEach_eq_ok h₆
  obtain ⟨f₇, m₇⟩ := selectEach_eq_ok h₇
  refine ⟨⟨?_, ?_, ?_, ?_, ?_, ?_, ?_⟩, fun y => ?_⟩
  · simpa [isSome_getNamedAlias] using f₁
  · simpa using f₂
  · simpa [isSome_getNamedGlobal] using f₃
  · simpa using f₄
  · simpa [isSome_getFunction] using f₅
  · simpa using f₆
  · simpa [isSome_getFunction] using f₇
  · simp only [m₇, m₆, m₅, m₄, m₃, m₂, m₁, Wanted, isSome_getNamedAlias, isSome_getNamedGlobal,
      isSome_getFunction]
    cases y <;>
      simp only [List.mem_ite_nil_right, List.mem_singleton, List.mem_map, List.mem_filter,
        GlobalValue.globalAlias.injEq, GlobalValue.global.injEq, GlobalValue.function.injEq,
        globalAlias_mem_globalValues, global_mem_globalValues, function_mem_globalValues,
        List.not_mem_nil, reduceCtorEq] <;>
      grind

/-- The lookup succeeds exactly if everything is there. -/
theorem exists_selectGVs_iff :
    (∃ GVs, selectGVs x L M ExtractFuncs ExtractRegExpGlobals = .ok GVs) ↔
      Selectable x L ExtractFuncs ExtractRegExpGlobals M.globalValues := by
  constructor
  · rintro ⟨GVs, h⟩
    exact (selectGVs_eq_ok h).1
  · intro h
    obtain ⟨GVs₁, h₁⟩ : ∃ GVs, selectAliases x M [] = .ok GVs :=
      selectEach_isOk [] (by simpa [isSome_getNamedAlias] using h.aliases)
    obtain ⟨GVs₂, h₂⟩ : ∃ GVs, selectRegExpAliases x L M GVs₁ = .ok GVs :=
      selectEach_isOk GVs₁ (by simpa using h.regExpAliases)
    obtain ⟨GVs₃, h₃⟩ : ∃ GVs, selectGlobals x M GVs₂ = .ok GVs :=
      selectEach_isOk GVs₂ (by simpa [isSome_getNamedGlobal] using h.globals)
    obtain ⟨GVs₄, h₄⟩ : ∃ GVs, selectRegExpGlobals x L M ExtractRegExpGlobals GVs₃ = .ok GVs :=
      selectEach_isOk GVs₃ (by simpa using h.regExpGlobals)
    obtain ⟨GVs₅, h₅⟩ : ∃ GVs, selectFuncs x M ExtractFuncs GVs₄ = .ok GVs :=
      selectEach_isOk GVs₄ (by simpa [isSome_getFunction] using h.funcs)
    obtain ⟨GVs₆, h₆⟩ : ∃ GVs, selectRegExpFuncs x L M GVs₅ = .ok GVs :=
      selectEach_isOk GVs₅ (by simpa using h.regExpFuncs)
    obtain ⟨GVs₇, h₇⟩ : ∃ GVs, selectBlockFuncs x M GVs₆ = .ok GVs :=
      selectEach_isOk GVs₆ (by simpa [isSome_getFunction] using h.blockFuncs)
    exact ⟨GVs₇, by simp only [selectGVs, h₁, h₂, h₃, h₄, h₅, h₆, h₇, bind, Except.bind]⟩

/-- With `ExtractRecursive`, the values are those reached by calls from the wanted ones. -/
theorem mem_closeOverCalls {GVs : List GlobalValue} {y : GlobalValue} :
    y ∈ closeOverCalls M GVs ↔ ∃ z ∈ GVs, ReflTransGen (fun a b => b ∈ M.callees a) z y := by
  refine mem_close (fun z hz => ?_) fun z hz hq => ?_
  · exact (List.mem_filter.mp (List.mem_reverse.mp hz)).1
  · cases z with
    | function F => exact absurd (List.mem_reverse.mpr (List.mem_filter.mpr ⟨hz, rfl⟩)) hq
    | _ => rfl

/-- A function calls another one directly, which has a body. -/
def Module.CallsDefined (M : Module) (a b : GlobalValue) : Prop :=
  ∃ F CF f p CB, a = .function F ∧ b = .function CF ∧ M.getFunction F = some f ∧
    (p, .call CB) ∈ f.instrs ∧ CB.getCalledFunction M = some CF ∧ (M.bodyOf CF).isSome = true

theorem Module.mem_callees {a b : GlobalValue} : b ∈ M.callees a ↔ M.CallsDefined a b := by
  constructor
  · intro hb
    unfold callees at hb
    split at hb
    · rename_i F
      split at hb
      · simp at hb
      · rename_i f hf
        obtain ⟨⟨p, i⟩, hi, hcallee⟩ := List.mem_filterMap.mp hb
        split at hcallee
        · rename_i CB hcall
          obtain rfl : i = .call CB := hcall
          obtain ⟨CF, hCF, hdefined⟩ := Option.bind_eq_some_iff.mp hcallee
          split at hdefined
          · rename_i hbody
            exact ⟨F, CF, f, p, CB, rfl, (Option.some.inj hdefined).symm, hf, hi, hCF, hbody⟩
          · simp at hdefined
        · simp at hcallee
    · simp at hb
  · rintro ⟨F, CF, f, p, CB, rfl, rfl, hf, hi, hCF, hbody⟩
    simp only [callees, hf]
    exact List.mem_filterMap.mpr ⟨_, hi, by simp [hCF, hbody]⟩

/-- The worklist loop before its first turn. -/
def workqueue (GVs : List GlobalValue) : Search GlobalValue where
  seen := GVs
  queue := (GVs.filter GlobalValue.isFunction).reverse
  pushed := GVs.filter GlobalValue.isFunction

theorem workqueue_once {GVs : List GlobalValue} (hGVs : GVs.Nodup) : (workqueue GVs).Once where
  nodup := hGVs.filter _
  subset := List.filter_subset_self _

/-- The loop ends with `sel` selected: the wanted values and all that calls lead to from them,
and nothing else. No function was ever put on the queue twice, and none that is not selected is
called. -/
structure ClosesOverCalls (M : Module) (GVs sel : List GlobalValue) : Prop where
  ends : ∃ n, ((Search.turn M.callees)^[n] (workqueue GVs)).queue = [] ∧
    ((Search.turn M.callees)^[n] (workqueue GVs)).seen = sel
  pushedOnce : ∀ n, ((Search.turn M.callees)^[n] (workqueue GVs)).pushed.Nodup
  least : IsLeast {S : Set GlobalValue |
    (∀ y, y ∈ GVs → y ∈ S) ∧ ∀ a ∈ S, ∀ b, M.CallsDefined a b → b ∈ S} {y | y ∈ sel}
  noneLeft : ∀ F f, M.getFunction F = some f → .function F ∈ sel →
    ∀ p CB, (p, .call CB) ∈ f.instrs → ∀ CF, CB.getCalledFunction M = some CF →
      (M.bodyOf CF).isSome = true → .function CF ∈ sel

/-- With `ExtractRecursive`, the selection is closed over calls. -/
theorem closeOverCalls_closes {GVs : List GlobalValue} (hGVs : GVs.Nodup) :
    ClosesOverCalls M GVs (closeOverCalls M GVs) := by
  have hleast : IsLeast {S : Set GlobalValue |
      (∀ y, y ∈ GVs → y ∈ S) ∧ ∀ a ∈ S, ∀ b, M.CallsDefined a b → b ∈ S}
      {y | y ∈ closeOverCalls M GVs} := by
    simpa only [mem_closeOverCalls, M.mem_callees] using
      isLeast_reached M.CallsDefined (fun y => y ∈ GVs)
  constructor
  · exact (workqueue GVs).exists_turns
  · intro n
    exact ((workqueue_once hGVs).turns n).nodup
  · exact hleast
  · intro F f hf hF p CB hCB CF hCF hbody
    exact hleast.1.2 _ hF _ ⟨F, CF, f, p, CB, rfl, rfl, hf, hCB, hCF, hbody⟩

/-- Two functions that call each other, one of them itself too, and one that starts them. -/
def evenOddModule : Module where
  functions := [
    { name := "main", params := [],
      body := some ⟨"entry", .instr (.call { dst := none, callee := .func "even", args := [] })
        (.instr (.call { dst := none, callee := .func "even", args := [] })
        (.instr (.term (.ret none)) .stop)), rfl⟩ },
    { name := "even", params := [],
      body := some ⟨"entry", .instr (.call { dst := none, callee := .func "odd", args := [] })
        (.instr (.call { dst := none, callee := .func "even", args := [] })
        (.instr (.term (.ret none)) .stop)), rfl⟩ },
    { name := "odd", params := [],
      body := some ⟨"entry", .instr (.call { dst := none, callee := .func "even", args := [] })
        (.instr (.term (.ret none)) .stop), rfl⟩ }]

theorem closeOverCalls_closes_evenOdd : ClosesOverCalls evenOddModule [.function "main"]
    (closeOverCalls evenOddModule [.function "main"]) :=
  closeOverCalls_closes (List.nodup_singleton _)

/-- The values that the extraction is about. -/
theorem extractedGVs_eq_ok {Recursive : Bool} {GVs : List GlobalValue}
    (h : extractedGVs x L M ExtractFuncs ExtractRegExpGlobals Recursive = .ok GVs) :
    Selectable x L ExtractFuncs ExtractRegExpGlobals M.globalValues ∧
      ∀ y, y ∈ GVs ↔ ∃ z, Wanted x L ExtractFuncs ExtractRegExpGlobals M z ∧
        if Recursive then ReflTransGen (fun a b => b ∈ M.callees a) z y else z = y := by
  obtain ⟨GVs₁, h₁, rfl⟩ := map_eq_ok.mp h
  obtain ⟨hselect, hmem⟩ := selectGVs_eq_ok h₁
  refine ⟨hselect, fun y => ?_⟩
  cases Recursive with
  | false => simp [hmem]
  | true => simp [mem_closeOverCalls, hmem]

theorem not_selectable_of_error {Recursive : Bool} {errs : List String}
    (h : extractedGVs x L M ExtractFuncs ExtractRegExpGlobals Recursive = .error errs) :
    ¬ Selectable x L ExtractFuncs ExtractRegExpGlobals M.globalValues := by
  rw [← exists_selectGVs_iff]
  rintro ⟨GVs, hselect⟩
  simp [extractedGVs, hselect] at h

/-- The functions of all `-bb` pairs are selected. -/
theorem blockFunc_mem {Recursive : Bool} {GVs : List GlobalValue}
    (h : extractedGVs x L M ExtractFuncs ExtractRegExpGlobals Recursive = .ok GVs) {p : String}
    (hp : p ∈ x.ExtractBlocks) : .function (splitBlocks p).1 ∈ GVs := by
  obtain ⟨hselect, hmem⟩ := extractedGVs_eq_ok h
  refine (hmem _).mpr ⟨_, ⟨hselect.blockFuncs p hp, .inr (.inr ⟨p, hp, rfl⟩)⟩, ?_⟩
  split <;> [exact .refl; rfl]

/-! ## Definitions and linkages -/

def Module.initializerOf (M : Module) (g : String) : Option Initializer :=
  (M.getNamedGlobal g).bind (·.initializer)

/-- The module has more of the symbol than a declaration. -/
def Module.defines (M : Module) : GlobalValue → Bool
  | .globalAlias n => (M.getNamedAlias n).isSome
  | .global n => (M.initializerOf n).isSome
  | .function n => (M.bodyOf n).isSome

def Module.linkageOf (M : Module) : GlobalValue → Option Linkage
  | .globalAlias n => (M.getNamedAlias n).map (·.linkage)
  | .global n => (M.getNamedGlobal n).map (·.linkage)
  | .function n => (M.getFunction n).map (·.linkage)

theorem isSome_linkageOf {M : Module} {y : GlobalValue} :
    (M.linkageOf y).isSome = true ↔ y ∈ M.globalValues := by
  cases y with
  | globalAlias n => rw [Module.linkageOf, Option.isSome_map, isSome_getNamedAlias]
  | global n => rw [Module.linkageOf, Option.isSome_map, isSome_getNamedGlobal]
  | function n => rw [Module.linkageOf, Option.isSome_map, isSome_getFunction]

theorem Module.mem_globalValues_of_defines {M : Module} {y : GlobalValue}
    (h : M.defines y = true) : y ∈ M.globalValues := by
  cases y with
  | globalAlias n => exact isSome_getNamedAlias.mp h
  | global n =>
    obtain ⟨v, hv, _⟩ := Option.bind_eq_some_iff.mp (Option.eq_some_of_isSome h)
    exact isSome_getNamedGlobal.mp (by simp [hv])
  | function n =>
    obtain ⟨f, hf, _⟩ := Option.bind_eq_some_iff.mp (Option.eq_some_of_isSome h)
    exact isSome_getFunction.mp (by simp [hf])

/-- `isDiscardableIfUnused`. -/
def Linkage.isDiscardableIfUnused : Linkage → Bool
  | .linkOnceAnyLinkage | .linkOnceODRLinkage | .internalLinkage | .privateLinkage
  | .availableExternallyLinkage => true
  | _ => false

/-- `makeVisible`, for a value that is not deleted. -/
def Linkage.makeVisible : Linkage → Linkage
  | .internalLinkage | .privateLinkage => .externalLinkage
  | .linkOnceAnyLinkage => .weakAnyLinkage
  | .linkOnceODRLinkage => .weakODRLinkage
  | l => l

/-- Only what is defined elsewhere too is still discarded. -/
theorem Linkage.isDiscardableIfUnused_makeVisible {l : Linkage} :
    l.makeVisible.isDiscardableIfUnused = true ↔ l = .availableExternallyLinkage := by
  cases l <;> simp [makeVisible, isDiscardableIfUnused]

/-- The pass passes over the list of constructors. -/
def GlobalValue.visibleLinkage (y : GlobalValue) (l : Linkage) : Linkage :=
  if y = .global "llvm.global_ctors" then l else l.makeVisible

/-- A value with something to delete. -/
def Module.deletable (M : Module) (keepConstInit : Bool) : GlobalValue → Bool
  | .globalAlias n => (M.getNamedAlias n).isSome
  | .global n => (M.getNamedGlobal n).any fun v =>
      v.initializer.isSome && !(keepConstInit && v.isConstant)
  | .function n => (M.bodyOf n).isSome

/-- The value is on the deleted side of the selection. -/
def Module.Deletes (M : Module) (selected : GlobalValue → Prop)
    (deleteStuff keepConstInit : Bool) (y : GlobalValue) : Prop :=
  (selected y ↔ deleteStuff = true) ∧ M.deletable keepConstInit y = true

/-! ## What the passes are documented to do -/

/-- `ExtractGVPass` takes the bodies on one side of the selection away. -/
structure ExtractPasses.DropsBodies (L : ExtractPasses) : Prop where
  extractGV_bodyOf : ∀ GVs del keep M F, (L.extractGV GVs del keep M).bodyOf F =
    if decide (.function F ∈ GVs) = del then none else M.bodyOf F

/-- More of what `ExtractGVPass` is documented to do. It deletes the aliases and initializers
on the deleted side, changes only the linkages of the other values, and adds no symbol but
for the declarations that take the places of aliases. -/
structure ExtractPasses.ExtractsGVs (L : ExtractPasses) : Prop where
  deletesAlias : ∀ GVs del keep M n, M.Deletes (· ∈ GVs) del keep (.globalAlias n) →
    .globalAlias n ∉ (L.extractGV GVs del keep M).globalValues
  deletesInitializer : ∀ GVs del keep M g, M.Deletes (· ∈ GVs) del keep (.global g) →
    (L.extractGV GVs del keep M).initializerOf g = none
  keepsInitializer : ∀ GVs del keep M g, ¬ M.Deletes (· ∈ GVs) del keep (.global g) →
    (L.extractGV GVs del keep M).initializerOf g = M.initializerOf g
  keepsLinkage : ∀ GVs del keep M y, y ∈ M.globalValues → ¬ M.Deletes (· ∈ GVs) del keep y →
    (L.extractGV GVs del keep M).linkageOf y = (M.linkageOf y).map y.visibleLinkage
  declares : ∀ GVs del keep M y, y ∈ (L.extractGV GVs del keep M).globalValues →
    y ∈ M.globalValues ∨ ∃ n, M.Deletes (· ∈ GVs) del keep (.globalAlias n)

/-- `BlockExtractorPass` erases all functions that were there before and leaves the other values
alone. `GlobalDCEPass` deletes what is not alive, and may take entries out of lists of functions;
whatever is not discardable is alive. The last passes define nothing and delete no definition. -/
structure ExtractPasses.Documented (L : ExtractPasses) : Prop extends
    L.DropsBodies, L.ExtractsGVs where
  extractGV_getFunction : ∀ GVs del keep M F, (M.getFunction F).isSome = true →
    ((L.extractGV GVs del keep M).getFunction F).isSome = true
  extractGV_getNamedAlias : ∀ GVs del keep M n,
    ((L.extractGV GVs del keep M).getNamedAlias n).isSome = true → (M.getNamedAlias n).isSome = true
  blockExtractor_bodyOf : ∀ groups M F, (M.getFunction F).isSome = true →
    (L.blockExtractor groups M).bodyOf F = none
  blockExtractor_initializerOf : ∀ groups M g,
    (L.blockExtractor groups M).initializerOf g = M.initializerOf g
  blockExtractor_linkageOf : ∀ groups M y, y.isFunction = false →
    (L.blockExtractor groups M).linkageOf y = M.linkageOf y
  globalDCE_defines : ∀ M y, (L.globalDCE M).defines y = (M.defines y && L.alive M y)
  globalDCE_bodyOf : ∀ M F, (L.globalDCE M).bodyOf F = none ∨ (L.globalDCE M).bodyOf F = M.bodyOf F
  globalDCE_initializerOf : ∀ M g i, M.initializerOf g = some i → L.listsFunctions i = false →
    (L.globalDCE M).initializerOf g = none ∨ (L.globalDCE M).initializerOf g = some i
  alive : ∀ M y l, M.defines y = true → M.linkageOf y = some l →
    l.isDiscardableIfUnused = false → L.alive M y = true
  strip_defines : ∀ M y, (L.stripDeadPrototypes (L.stripDeadDebugInfo M)).defines y = M.defines y
  strip_bodyOf : ∀ M F, (L.stripDeadPrototypes (L.stripDeadDebugInfo M)).bodyOf F = M.bodyOf F
  strip_initializerOf : ∀ M g,
    (L.stripDeadPrototypes (L.stripDeadDebugInfo M)).initializerOf g = M.initializerOf g

/-- The extraction keeps the value: it is on the right side of the selection, and no function
where blocks are cut out. -/
def ExtractOptions.Keeps (x : ExtractOptions) (GVs : List GlobalValue) (y : GlobalValue) : Prop :=
  decide (y ∈ GVs) ≠ x.DeleteFn ∧ (y.isFunction = true → x.ExtractBlocks = [])

/-- The new module defines what it is to keep, as it was, up to entries of lists of functions.
Nothing on the deleted side of the selection is left; with `-bb` the only functions are the cut
out blocks. -/
structure ReducedTo (x : ExtractOptions) (L : ExtractPasses) (GVs : List GlobalValue)
    (M M' : Module) : Prop where
  keeps : ∀ y, x.Keeps GVs y → M.defines y = true → M'.defines y = true
  deletes : ∀ y, x.ExtractBlocks = [] ∨ y ∈ M.globalValues → M'.defines y = true →
    M.defines y = true ∧ ¬ M.Deletes (· ∈ GVs) x.DeleteFn x.KeepConstInit y ∧
      (y.isFunction = true → x.ExtractBlocks = [])
  bodyOf : ∀ F b, .function F ∈ M.globalValues → M'.bodyOf F = some b → M.bodyOf F = some b
  initializerOf : ∀ g i, M'.initializerOf g = some i →
    ∃ i', M.initializerOf g = some i' ∧ (L.listsFunctions i' = false → i = i')

/-- The blocks of all pairs are there, in functions that keep their bodies. -/
def BlocksExist (x : ExtractOptions) (L : ExtractPasses) (M : Module) : Prop :=
  ∀ p ∈ x.ExtractBlocks, ∀ BBName ∈ (splitBlocks p).2,
    x.DeleteFn = false ∧ ∃ b, M.bodyOf (splitBlocks p).1 = some b ∧ BBName ∈ L.blockNames b

/-- What is to be kept, but stays discardable because it is defined elsewhere too, is found alive
by the clean-up. -/
def KeptAlive (x : ExtractOptions) (L : ExtractPasses) (GVs : List GlobalValue) (M : Module) :
    Prop :=
  x.DeleteFn = false → ∀ y l, x.Keeps GVs y → M.defines y = true → M.linkageOf y = some l →
    (y.visibleLinkage l).isDiscardableIfUnused = true →
      L.alive (cutBlocks x L (L.extractGV GVs false x.KeepConstInit M)
        (x.ExtractBlocks.map splitBlocks)) y = true

/-! ## What the extraction does -/

theorem exists_findBlocks_iff {p : String} : (∃ group, findBlocks x L M p = .ok group) ↔
    ∀ BBName ∈ (splitBlocks p).2,
      ∃ b, M.bodyOf (splitBlocks p).1 = some b ∧ BBName ∈ L.blockNames b := by
  have hmem (BBName : String) :
      BBName ∈ ((M.bodyOf (splitBlocks p).1).map L.blockNames).getD [] ↔
        ∃ b, M.bodyOf (splitBlocks p).1 = some b ∧ BBName ∈ L.blockNames b := by
    cases M.bodyOf (splitBlocks p).1 <;> simp
  simp only [← hmem, findBlocks]
  split
  · rename_i BBName hfind
    have hBB := List.mem_of_find?_eq_some hfind
    have hmissing : BBName ∉ ((M.bodyOf (splitBlocks p).1).map L.blockNames).getD [] := by
      simpa using List.find?_some hfind
    exact iff_of_false (by simp) fun h => hmissing (h BBName hBB)
  · rename_i hnone
    refine iff_of_true ⟨_, rfl⟩ fun BBName hBB => ?_
    simpa using List.find?_eq_none.mp hnone BBName hBB

/-- The blocks that are looked for after the first pass were there before it. -/
theorem groupBlocks_extractGV (hL : L.DropsBodies) {GVs : List GlobalValue}
    (hGVs : ∀ p ∈ x.ExtractBlocks, .function (splitBlocks p).1 ∈ GVs) :
    (∃ groups, groupBlocks x L (L.extractGV GVs x.DeleteFn x.KeepConstInit M) = .ok groups) ↔
      BlocksExist x L M := by
  rw [groupBlocks, exists_mapM_iff]
  simp only [exists_findBlocks_iff]
  apply forall₂_congr
  intro p hp
  apply forall₂_congr
  intro BBName _
  simp only [hL.extractGV_bodyOf, hGVs p hp, decide_true]
  cases x.DeleteFn <;> simp

/-- The extraction succeeds exactly if all that it asks for is there. -/
theorem LLVMExtract_returned (hL : L.DropsBodies) (Recursive : Bool) :
    (LLVMExtract x L M ExtractFuncs ExtractRegExpGlobals Recursive).returned = 0 ↔
      Selectable x L ExtractFuncs ExtractRegExpGlobals M.globalValues ∧ BlocksExist x L M := by
  unfold LLVMExtract
  cases hGVs : extractedGVs x L M ExtractFuncs ExtractRegExpGlobals Recursive with
  | error errs => simp [not_selectable_of_error hGVs]
  | ok GVs =>
    obtain ⟨hselect, _⟩ := extractedGVs_eq_ok hGVs
    have hblocks : ∀ p ∈ x.ExtractBlocks, .function (splitBlocks p).1 ∈ GVs :=
      fun p hp => blockFunc_mem hGVs hp
    simp only [hselect, true_and, ← groupBlocks_extractGV hL hblocks]
    cases groupBlocks x L (L.extractGV GVs x.DeleteFn x.KeepConstInit M) <;> simp

theorem groupBlocks_eq_ok {groups : List (String × List String)}
    (h : groupBlocks x L M = .ok groups) : groups = x.ExtractBlocks.map splitBlocks := by
  refine eq_map_of_mapM (fun p group hp => ?_) h
  simp only [findBlocks] at hp
  split at hp
  · cases hp
  · exact (Except.ok.inj hp).symm

/-! ### Which definitions are left -/

theorem deletes_of_keeps {GVs : List GlobalValue} {del keep : Bool} {y : GlobalValue}
    (h : decide (y ∈ GVs) ≠ del) : ¬ M.Deletes (· ∈ GVs) del keep y := by
  rintro ⟨hside, -⟩
  cases del <;> simp_all

theorem defines_extractGV (hL : L.Documented) {GVs : List GlobalValue} {del keep : Bool}
    {y : GlobalValue} : (L.extractGV GVs del keep M).defines y = true ↔
      M.defines y = true ∧ ¬ M.Deletes (· ∈ GVs) del keep y := by
  cases y with
  | globalAlias n =>
    constructor
    · intro h
      refine ⟨hL.extractGV_getNamedAlias _ _ _ _ _ h, fun hdel => ?_⟩
      exact hL.deletesAlias _ _ _ _ _ hdel (isSome_getNamedAlias.mp h)
    · rintro ⟨h, hkeep⟩
      have hmem := isSome_getNamedAlias.mp h
      have hlinkage := hL.keepsLinkage GVs del keep M _ hmem hkeep
      refine isSome_getNamedAlias.mpr (isSome_linkageOf.mp ?_)
      rw [hlinkage, Option.isSome_map]
      exact isSome_linkageOf.mpr hmem
  | global g =>
    by_cases hdel : M.Deletes (· ∈ GVs) del keep (.global g)
    · simp [Module.defines, hL.deletesInitializer _ _ _ _ _ hdel, hdel]
    · simp [Module.defines, hL.keepsInitializer _ _ _ _ _ hdel, hdel]
  | function F =>
    have hside : decide (.function F ∈ GVs) = del ↔ (.function F ∈ GVs ↔ del = true) := by
      cases del <;> simp
    simp only [Module.defines, hL.extractGV_bodyOf, hside, Module.Deletes, Module.deletable]
    split <;> cases M.bodyOf F <;> simp [*]

theorem defines_cutBlocks (hL : L.Documented) {groups : List (String × List String)}
    {y : GlobalValue} (hy : y.isFunction = true → x.ExtractBlocks = []) :
    (cutBlocks x L M groups).defines y = M.defines y := by
  unfold cutBlocks
  split
  · rfl
  · rename_i hblocks
    cases y with
    | globalAlias n =>
      have hlinkage := hL.blockExtractor_linkageOf groups M (.globalAlias n) rfl
      simpa [Module.linkageOf, Module.defines] using congrArg Option.isSome hlinkage
    | global g => simp [Module.defines, hL.blockExtractor_initializerOf]
    | function F => exact absurd (hy rfl) (by simpa using hblocks)

theorem defines_cleanUp (hL : L.Documented) {y : GlobalValue} :
    (cleanUp x L M).defines y = (M.defines y && (x.DeleteFn || L.alive M y)) := by
  rw [cleanUp, hL.strip_defines]
  cases x.DeleteFn <;> simp [hL.globalDCE_defines]

theorem linkageOf_cutBlocks (hL : L.Documented) {groups : List (String × List String)}
    {y : GlobalValue} (hy : y.isFunction = true → x.ExtractBlocks = []) :
    (cutBlocks x L M groups).linkageOf y = M.linkageOf y := by
  unfold cutBlocks
  split
  · rfl
  · rename_i hblocks
    refine hL.blockExtractor_linkageOf groups M y ?_
    cases hf : y.isFunction with
    | true => exact absurd (hy hf) (by simpa using hblocks)
    | false => rfl

/-- What the first passes leave of the selection. -/
def cutModule (x : ExtractOptions) (L : ExtractPasses) (GVs : List GlobalValue) (M : Module) :
    Module :=
  cutBlocks x L (L.extractGV GVs x.DeleteFn x.KeepConstInit M) (x.ExtractBlocks.map splitBlocks)

theorem defines_cutModule (hL : L.Documented) {GVs : List GlobalValue} {y : GlobalValue}
    (hy : x.Keeps GVs y) (hdef : M.defines y = true) :
    (cutModule x L GVs M).defines y = true := by
  rw [cutModule, defines_cutBlocks hL hy.2, defines_extractGV hL]
  exact ⟨hdef, deletes_of_keeps hy.1⟩

/-- The clean-up keeps everything that is to be kept exactly if what it may discard is alive. -/
theorem keeps_iff (hL : L.Documented) {GVs : List GlobalValue} :
    (∀ y, x.Keeps GVs y → M.defines y = true →
      (cleanUp x L (cutModule x L GVs M)).defines y = true) ↔ KeptAlive x L GVs M := by
  have hleft (y : GlobalValue) (hy : x.Keeps GVs y) (hdef : M.defines y = true) :
      (cleanUp x L (cutModule x L GVs M)).defines y = true ↔
        x.DeleteFn = false → L.alive (cutModule x L GVs M) y = true := by
    rw [defines_cleanUp hL, defines_cutModule hL hy hdef]
    cases x.DeleteFn <;> simp
  have hlinkage (y : GlobalValue) (l : Linkage) (hy : x.Keeps GVs y) (hdef : M.defines y = true)
      (hl : M.linkageOf y = some l) :
      (cutModule x L GVs M).linkageOf y = some (y.visibleLinkage l) := by
    rw [cutModule, linkageOf_cutBlocks hL hy.2, hL.keepsLinkage _ _ _ _ _
      (Module.mem_globalValues_of_defines hdef) (deletes_of_keeps hy.1), hl]
    rfl
  constructor
  · intro h hdel y l hy hdef _ _
    have halive := (hleft y hy hdef).mp (h y hy hdef) hdel
    rwa [cutModule, hdel] at halive
  · intro h y hy hdef
    refine (hleft y hy hdef).mpr fun hdel => ?_
    obtain ⟨l, hl⟩ := Option.isSome_iff_exists.mp
      (isSome_linkageOf.mpr (Module.mem_globalValues_of_defines hdef))
    by_cases hdiscard : (y.visibleLinkage l).isDiscardableIfUnused = true
    · have halive := h hdel y l hy hdef hl hdiscard
      rwa [cutModule, hdel]
    · exact hL.alive _ y _ (defines_cutModule hL hy hdef) (hlinkage y l hy hdef hl)
        (by simpa using hdiscard)

theorem bodyOf_cleanUp (hL : L.Documented) {F : String} {b : Body}
    (h : (cleanUp x L M).bodyOf F = some b) : M.bodyOf F = some b := by
  rw [cleanUp, hL.strip_bodyOf] at h
  split at h
  · exact h
  · rcases hL.globalDCE_bodyOf M F with hnone | hsame
    · simp [hnone] at h
    · rwa [hsame] at h

/-- Of the functions that were there, none is left where blocks are cut out. -/
theorem bodyOf_cutModule (hL : L.Documented) {GVs : List GlobalValue} {F : String} {b : Body}
    (hF : .function F ∈ M.globalValues ∨ x.ExtractBlocks = [])
    (h : (cutModule x L GVs M).bodyOf F = some b) :
    x.ExtractBlocks = [] ∧ decide (.function F ∈ GVs) ≠ x.DeleteFn ∧ M.bodyOf F = some b := by
  unfold cutModule cutBlocks at h
  split at h
  · rename_i hblocks
    rw [hL.extractGV_bodyOf] at h
    split at h
    · cases h
    · exact ⟨by simpa using hblocks, by assumption, h⟩
  · rename_i hblocks
    have hmem := hF.resolve_right (by simpa using hblocks)
    rw [hL.blockExtractor_bodyOf _ _ _
      (hL.extractGV_getFunction _ _ _ _ _ (isSome_getFunction.mpr hmem))] at h
    cases h

theorem initializerOf_cutModule (hL : L.Documented) (GVs : List GlobalValue) (g : String) :
    (cutModule x L GVs M).initializerOf g =
      (L.extractGV GVs x.DeleteFn x.KeepConstInit M).initializerOf g := by
  unfold cutModule cutBlocks
  split <;> [rfl; exact hL.blockExtractor_initializerOf _ _ g]

/-- The rest of what a reduced module is. -/
theorem reducedTo_iff (hL : L.Documented) {GVs : List GlobalValue} :
    ReducedTo x L GVs M (cleanUp x L (cutModule x L GVs M)) ↔ KeptAlive x L GVs M := by
  rw [← keeps_iff hL]
  refine ⟨fun h => h.keeps, fun hkeeps => ⟨hkeeps, ?_, ?_, ?_⟩⟩
  · intro y hy hdef
    have hcut : (cutModule x L GVs M).defines y = true := by
      rw [defines_cleanUp hL, Bool.and_eq_true] at hdef
      exact hdef.1
    have hfun : y.isFunction = true → x.ExtractBlocks = [] := by
      intro hf
      cases y with
      | function F =>
        obtain ⟨b, hb⟩ := Option.isSome_iff_exists.mp hcut
        exact (bodyOf_cutModule hL hy.symm hb).1
      | _ => cases hf
    rw [cutModule, defines_cutBlocks hL hfun, defines_extractGV hL] at hcut
    exact ⟨hcut.1, hcut.2, hfun⟩
  · intro F b hF hb
    exact (bodyOf_cutModule hL (.inl hF) (bodyOf_cleanUp hL hb)).2.2
  · intro g i hi
    rw [cleanUp, hL.strip_initializerOf] at hi
    have hsome : ∃ i', (cutModule x L GVs M).initializerOf g = some i' ∧
        (L.listsFunctions i' = false → i = i') := by
      split at hi
      · exact ⟨i, hi, fun _ => rfl⟩
      · have hdef : (L.globalDCE (cutModule x L GVs M)).defines (.global g) = true := by
          simp [Module.defines, hi]
        rw [hL.globalDCE_defines, Bool.and_eq_true] at hdef
        obtain ⟨i', hi'⟩ := Option.isSome_iff_exists.mp hdef.1
        refine ⟨i', hi', fun hlist => ?_⟩
        rcases hL.globalDCE_initializerOf _ g i' hi' hlist with hnone | hsame
        · simp [hnone] at hi
        · exact Option.some.inj (hi.symm.trans hsame)
    obtain ⟨i', hi', hlist⟩ := hsome
    rw [initializerOf_cutModule hL] at hi'
    refine ⟨i', ?_, hlist⟩
    by_cases hdel : M.Deletes (· ∈ GVs) x.DeleteFn x.KeepConstInit (.global g)
    · simp [hL.deletesInitializer _ _ _ _ _ hdel] at hi'
    · rwa [hL.keepsInitializer _ _ _ _ _ hdel] at hi'

/-- What an extraction that succeeds leaves. -/
theorem LLVMExtract_eq_ok {Recursive : Bool}
    (h : (LLVMExtract x L M ExtractFuncs ExtractRegExpGlobals Recursive).returned = 0) :
    ∃ GVs, extractedGVs x L M ExtractFuncs ExtractRegExpGlobals Recursive = .ok GVs ∧
      (LLVMExtract x L M ExtractFuncs ExtractRegExpGlobals Recursive).module =
        cleanUp x L (cutModule x L GVs M) := by
  unfold LLVMExtract at h ⊢
  cases hGVs : extractedGVs x L M ExtractFuncs ExtractRegExpGlobals Recursive with
  | error errs => simp [hGVs] at h
  | ok GVs =>
    refine ⟨GVs, rfl, ?_⟩
    simp only [hGVs] at h ⊢
    cases hgroups : groupBlocks x L (L.extractGV GVs x.DeleteFn x.KeepConstInit M) with
    | error errs => simp [hgroups] at h
    | ok groups =>
      obtain rfl := groupBlocks_eq_ok hgroups
      rfl

/-- All that the command line selects is there, up to the blocks, and what the extraction keeps
outlives the clean-up. -/
structure CanExtract (x : ExtractOptions) (L : ExtractPasses)
    (ExtractFuncs ExtractRegExpGlobals : List String) (Recursive : Bool) (M : Module) : Prop where
  select : Selectable x L ExtractFuncs ExtractRegExpGlobals M.globalValues
  blocks : BlocksExist x L M
  kept : ∀ GVs, extractedGVs x L M ExtractFuncs ExtractRegExpGlobals Recursive = .ok GVs →
    KeptAlive x L GVs M

/-- The extraction succeeds and does what it is to do exactly if it can. -/
theorem LLVMExtract_reduces_iff (hL : L.Documented) {Recursive : Bool} :
    (LLVMExtract x L M ExtractFuncs ExtractRegExpGlobals Recursive).returned = 0 ∧
        (∃ GVs, extractedGVs x L M ExtractFuncs ExtractRegExpGlobals Recursive = .ok GVs ∧
          ReducedTo x L GVs M
            (LLVMExtract x L M ExtractFuncs ExtractRegExpGlobals Recursive).module) ↔
      CanExtract x L ExtractFuncs ExtractRegExpGlobals Recursive M := by
  constructor
  · rintro ⟨hzero, GVs, hGVs, hreduced⟩
    obtain ⟨hselect, hblocks⟩ := (LLVMExtract_returned hL.toDropsBodies Recursive).mp hzero
    refine ⟨hselect, hblocks, fun GVs' hGVs' => ?_⟩
    obtain ⟨GVs'', hGVs'', hmodule⟩ := LLVMExtract_eq_ok hzero
    obtain rfl := Except.ok.inj (hGVs.symm.trans hGVs')
    obtain rfl := Except.ok.inj (hGVs.symm.trans hGVs'')
    rw [hmodule] at hreduced
    exact (reducedTo_iff hL).mp hreduced
  · rintro ⟨hselect, hblocks, hkept⟩
    have hzero := (LLVMExtract_returned hL.toDropsBodies Recursive).mpr ⟨hselect, hblocks⟩
    obtain ⟨GVs, hGVs, hmodule⟩ := LLVMExtract_eq_ok hzero
    refine ⟨hzero, GVs, hGVs, ?_⟩
    rw [hmodule]
    exact (reducedTo_iff hL).mpr (hkept GVs hGVs)

end Lookup

end Squanchy
