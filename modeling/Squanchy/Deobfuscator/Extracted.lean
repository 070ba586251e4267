import Squanchy.Deobfuscator.Pipeline
import Squanchy.IR.Locality
import Squanchy.Success

/-!
# What is extracted runs as before

With `-extract-recursive` the extraction takes along all functions that calls by name lead to.
What it cannot see is where pointers lead. A function that is extracted runs as it did in the
whole module until a pointer takes it to one that was left behind; and so does the whole tool,
from its input to the module that it writes.
-/

namespace Squanchy

open Library Relation

/-! ## The extraction -/

section Extraction

variable {x : ExtractOptions} {L : ExtractPasses} {M : Module}
  {ExtractFuncs ExtractRegExpGlobals : List String}

/-- Without `-bb` and `-delete`, the functions that are selected keep their bodies, and no other
function has one. -/
theorem bodyOf_LLVMExtract (hL : L.Documented) (hblocks : x.ExtractBlocks = [])
    (hdelete : x.DeleteFn = false) {Recursive : Bool} {GVs : List GlobalValue}
    (hGVs : extractedGVs x L M ExtractFuncs ExtractRegExpGlobals Recursive = .ok GVs)
    (hkept : KeptAlive x L GVs M) (F : String) :
    (LLVMExtract x L M ExtractFuncs ExtractRegExpGlobals Recursive).module.bodyOf F =
      if .function F ∈ GVs then M.bodyOf F else none := by
  have hreturned := (LLVMExtract_returned hL.toDropsBodies (x := x) Recursive).mpr
    ⟨(extractedGVs_eq_ok hGVs).1, by simp [BlocksExist, hblocks]⟩
  obtain ⟨GVs', hGVs', hmodule⟩ := LLVMExtract_eq_ok hreturned
  obtain rfl := Except.ok.inj (hGVs.symm.trans hGVs')
  have hreduced := (reducedTo_iff hL).mpr hkept
  rw [hmodule]
  generalize cleanUp x L (cutModule x L GVs M) = M' at hreduced
  have hdefined (b : Body) (hb : M'.bodyOf F = some b) :
      .function F ∈ GVs ∧ M.bodyOf F = some b := by
    obtain ⟨hdef, hside, _⟩ :=
      hreduced.deletes (.function F) (.inl hblocks) (by simp [Module.defines, hb])
    refine ⟨by_contra fun hF => hside ⟨by simp [hF, hdelete], hdef⟩, ?_⟩
    exact hreduced.bodyOf F b (Module.mem_globalValues_of_defines hdef) hb
  cases hb : M'.bodyOf F with
  | some b =>
    obtain ⟨hF, hbody⟩ := hdefined b hb
    rw [if_pos hF, hbody]
  | none =>
    split
    · rename_i hF
      by_contra hbody
      have hdef := hreduced.keeps (.function F) ⟨by simp [hF, hdelete], fun _ => hblocks⟩
        (Option.ne_none_iff_isSome.mp (Ne.symm hbody))
      simp [Module.defines, hb] at hdef
    · rfl

/-- The calls that are followed are the direct ones, of defined functions. -/
theorem mem_callees_iff {y z : GlobalValue} : y ∈ M.callees z ↔
    ∃ g g' b, z = .function g ∧ y = .function g' ∧ M.bodyOf g = some b ∧
      g' ∈ b.code.directCallees M ∧ (M.bodyOf g').isSome = true := by
  rw [M.mem_callees]
  constructor
  · rintro ⟨g, g', f, d, CB, rfl, rfl, hf, hi, hcallee, hbody⟩
    cases hb : f.body with
    | none => simp [Function.instrs, hb] at hi
    | some b =>
      refine ⟨g, g', b, rfl, rfl, by simp [Module.bodyOf, hf, hb], ?_, hbody⟩
      rw [Code.directCallees_eq M 0]
      exact List.mem_filterMap.mpr
        ⟨(d, .call CB), by simpa [Function.instrs, hb] using hi, hcallee⟩
  · rintro ⟨g, g', b, rfl, rfl, hb, hg', hbody⟩
    rw [Code.directCallees_eq M 0] at hg'
    obtain ⟨⟨d, i⟩, hi, hcallee⟩ := List.mem_filterMap.mp hg'
    obtain ⟨f, hf, hfb⟩ := Option.bind_eq_some_iff.mp hb
    cases i with
    | call CB =>
      refine ⟨g, g', f, d, CB, rfl, rfl, hf, ?_, hcallee, hbody⟩
      simpa [Function.instrs, hfb] using hi
    | _ => cases hcallee

/-- What the run needs of the module: the selected functions, and those of the host. -/
def neededBy (M : Module) (GVs : List GlobalValue) (g : String) : Bool :=
  decide (.function g ∈ GVs) || (M.bodyOf g).isNone

theorem sharedCode_neededBy (hL : L.Documented) (hblocks : x.ExtractBlocks = [])
    (hdelete : x.DeleteFn = false) {GVs : List GlobalValue}
    (hGVs : extractedGVs x L M ExtractFuncs ExtractRegExpGlobals true = .ok GVs)
    (hkept : KeptAlive x L GVs M) :
    SharedCode (neededBy M GVs) M
      (LLVMExtract x L M ExtractFuncs ExtractRegExpGlobals true).module where
  bodyOf g hg := by
    rw [bodyOf_LLVMExtract hL hblocks hdelete hGVs hkept]
    simp only [neededBy, Bool.or_eq_true, decide_eq_true_eq, Option.isNone_iff_eq_none] at hg
    rcases hg with hg | hg
    · rw [if_pos hg]
    · rw [hg, ite_self]
  closed g b hg hb g' hg' := by
    have hsel : .function g ∈ GVs := by simpa [neededBy, hb] using hg
    simp only [neededBy, Bool.or_eq_true, decide_eq_true_eq, Option.isNone_iff_eq_none]
    cases hb' : M.bodyOf g' with
    | none => exact .inr rfl
    | some b' =>
      left
      obtain ⟨_, hmem⟩ := extractedGVs_eq_ok hGVs
      obtain ⟨z, hz, hreach⟩ := (hmem _).mp hsel
      have hcall : .function g' ∈ M.callees (.function g) :=
        mem_callees_iff.mpr ⟨g, g', b, rfl, rfl, hb, hg', by simp [hb']⟩
      exact (hmem _).mpr ⟨z, hz, hreach.tail hcall⟩

/-- The modules before and after share what is extracted, and the functions of the host. -/
theorem exists_sharedCode (hL : L.Documented) (hblocks : x.ExtractBlocks = [])
    (hdelete : x.DeleteFn = false)
    (hkept : ∀ GVs, extractedGVs x L M ExtractFuncs ExtractRegExpGlobals true = .ok GVs →
      KeptAlive x L GVs M) :
    ∃ S : String → Bool,
      SharedCode S M (LLVMExtract x L M ExtractFuncs ExtractRegExpGlobals true).module ∧
      ∀ g, M.bodyOf g = none ∨
        Extracted x L ExtractFuncs ExtractRegExpGlobals true M (.function g) → S g = true := by
  cases hGVs : extractedGVs x L M ExtractFuncs ExtractRegExpGlobals true with
  | error errs =>
    refine ⟨fun _ => true, ?_, fun _ _ => rfl⟩
    simp only [LLVMExtract, hGVs]
    exact ⟨fun _ _ => rfl, fun _ _ _ _ _ _ => rfl⟩
  | ok GVs =>
    refine ⟨neededBy M GVs, sharedCode_neededBy hL hblocks hdelete hGVs (hkept GVs hGVs), ?_⟩
    intro g hg
    rw [Extracted, ← (extractedGVs_eq_ok hGVs).2, or_comm] at hg
    simpa [neededBy] using hg

/-- The globals with other initializers in `M'`, or without theirs. -/
def Module.otherContents (M M' : Module) (g : String) : Bool :=
  M'.initializerOf g != M.initializerOf g

/-- A run of an extracted function is the same before and after the extraction, if its calls
lead it to extracted functions and to the host only, and it reads no global whose initializer is
not extracted. -/
theorem LLVMExtract_sameBut (hL : L.Documented) (hblocks : x.ExtractBlocks = [])
    (hdelete : x.DeleteFn = false)
    (hkept : ∀ GVs, extractedGVs x L M ExtractFuncs ExtractRegExpGlobals true = .ok GVs →
      KeptAlive x L GVs M) {M' : Module}
    (hM' : M' = (LLVMExtract x L M ExtractFuncs ExtractRegExpGlobals true).module) {F : String}
    (hF : Extracted x L ExtractFuncs ExtractRegExpGlobals true M (.function F)) {m : Machine}
    {args : List Val} {h h' : Heap} (hh : AgreeBut (M.otherContents M') h h') {n : Nat}
    (hcalls : ∀ e ∈ (callFunction m M F args h n).trace, ∀ g ∈ e.2.unfollowed M,
      M.bodyOf g = none ∨ Extracted x L ExtractFuncs ExtractRegExpGlobals true M (.function g))
    (hreads : ReadsNone (M.otherContents M') (callFunction m M F args h n).trace) :
    SameBut (M.otherContents M') (callFunction m M F args h n)
      (callFunction m M' F args h' n) := by
  obtain ⟨S, hshared, hS⟩ := exists_sharedCode hL hblocks hdelete hkept
  rw [← hM'] at hshared
  exact callFunction_shared hshared (hS F (.inr hF)) hh
    (fun e he g hg => hS g (hcalls e he g hg)) hreads

/-! ### In stages -/

/-- The passes leave the types of the functions alone. -/
structure ExtractPasses.KeepsTypes (L : ExtractPasses) : Prop where
  extractGV : ∀ GVs del keep M F, (M.getFunction F).isSome = true →
    (L.extractGV GVs del keep M).functionType F = M.functionType F
  globalDCE : ∀ M F, ((L.globalDCE M).getFunction F).isSome = true →
    (L.globalDCE M).functionType F = M.functionType F
  strip : ∀ M F, ((L.stripDeadPrototypes (L.stripDeadDebugInfo M)).getFunction F).isSome = true →
    (L.stripDeadPrototypes (L.stripDeadDebugInfo M)).functionType F = M.functionType F

theorem isSome_getFunction_of_bodyOf {F : String} (h : (M.bodyOf F).isSome = true) :
    (M.getFunction F).isSome = true := by
  obtain ⟨f, hf, _⟩ := Option.bind_eq_some_iff.mp (Option.eq_some_of_isSome h)
  simp [hf]

theorem isSome_functionType {F : String} :
    (M.functionType F).isSome = (M.getFunction F).isSome := by
  simp [Module.functionType]

theorem functionType_LLVMExtract (hL : L.KeepsTypes) (hblocks : x.ExtractBlocks = [])
    (hdelete : x.DeleteFn = false) {Recursive : Bool}
    (hreturned : (LLVMExtract x L M ExtractFuncs ExtractRegExpGlobals Recursive).returned = 0)
    {F : String} (hM : (M.bodyOf F).isSome = true)
    (hF : ((LLVMExtract x L M ExtractFuncs ExtractRegExpGlobals Recursive).module.bodyOf F).isSome =
      true) :
    (LLVMExtract x L M ExtractFuncs ExtractRegExpGlobals Recursive).module.functionType F =
      M.functionType F := by
  obtain ⟨GVs, _, hmodule⟩ := LLVMExtract_eq_ok hreturned
  rw [hmodule] at hF ⊢
  simp only [cleanUp, cutModule, cutBlocks, hblocks, hdelete, Bool.false_eq_true, if_false,
    List.isEmpty_nil, if_true] at hF ⊢
  have hstrip := hL.strip _ F (isSome_getFunction_of_bodyOf hF)
  have halive : ((L.globalDCE (L.extractGV GVs false x.KeepConstInit M)).getFunction F).isSome =
      true := by
    rw [← isSome_functionType, ← hstrip, isSome_functionType]
    exact isSome_getFunction_of_bodyOf hF
  rw [hstrip, hL.globalDCE _ F halive,
    hL.extractGV _ _ _ _ F (isSome_getFunction_of_bodyOf hM)]

/-- What is selected without regular expressions and `-bb`. -/
theorem function_extracted_iff (hblocks : x.ExtractBlocks = [])
    (hregex : x.ExtractRegExpFuncs = [])
    (hselect : Selectable x L ExtractFuncs ExtractRegExpGlobals M.globalValues) {F : String} :
    Extracted x L ExtractFuncs ExtractRegExpGlobals true M (.function F) ↔
      ∃ n ∈ ExtractFuncs,
        ReflTransGen (fun a b => b ∈ M.callees a) (.function n) (.function F) := by
  constructor
  · rintro ⟨z, ⟨_, hz⟩, hreach⟩
    rcases hreach.cases_head with rfl | ⟨y, hy, _⟩
    · have hF : F ∈ ExtractFuncs := by simpa [hblocks, hregex] using hz
      exact ⟨F, hF, .refl⟩
    · obtain ⟨n, _, _, rfl, _⟩ := mem_callees_iff.mp hy
      have hn : n ∈ ExtractFuncs := by simpa [hblocks, hregex] using hz
      exact ⟨n, hn, hreach⟩
  · rintro ⟨n, hn, hreach⟩
    exact ⟨_, ⟨hselect.funcs n hn, .inl hn⟩, hreach⟩

/-- The extraction leaves the calls of what it keeps as they were. -/
theorem mem_callees_LLVMExtract (hL : L.Documented) (htypes : L.KeepsTypes)
    (hblocks : x.ExtractBlocks = []) (hdelete : x.DeleteFn = false)
    (hcan : CanExtract x L ExtractFuncs ExtractRegExpGlobals true M) {GVs : List GlobalValue}
    (hGVs : extractedGVs x L M ExtractFuncs ExtractRegExpGlobals true = .ok GVs)
    {y z : GlobalValue} (hz : z ∈ GVs) :
    y ∈ (LLVMExtract x L M ExtractFuncs ExtractRegExpGlobals true).module.callees z ↔
      y ∈ M.callees z := by
  have hbodyOf := bodyOf_LLVMExtract hL hblocks hdelete hGVs (hcan.kept GVs hGVs)
  have hbody (F : String) (hF : .function F ∈ GVs) :
      (LLVMExtract x L M ExtractFuncs ExtractRegExpGlobals true).module.bodyOf F = M.bodyOf F := by
    rw [hbodyOf, if_pos hF]
  have htype (F : String) (hM : (M.bodyOf F).isSome = true) (hF : .function F ∈ GVs) :=
    functionType_LLVMExtract htypes hblocks hdelete
      ((LLVMExtract_reduces_iff hL).mpr hcan).1 hM ((hbody F hF).symm ▸ hM)
  rw [mem_callees_iff, mem_callees_iff]
  constructor
  · rintro ⟨g, g', b, rfl, rfl, hb, hg', hdefined⟩
    rw [hbody g hz] at hb
    obtain ⟨hF, hM⟩ : .function g' ∈ GVs ∧ (M.bodyOf g').isSome = true := by
      rw [hbodyOf] at hdefined
      split at hdefined
      · exact ⟨by assumption, hdefined⟩
      · cases hdefined
    exact ⟨g, g', b, rfl, rfl, hb,
      Code.directCallees_of_types (fun t ht => (htype g' hM hF).symm.trans ht) hg', hM⟩
  · rintro ⟨g, g', b, rfl, rfl, hb, hg', hdefined⟩
    have hcall : .function g' ∈ M.callees (.function g) :=
      mem_callees_iff.mpr ⟨g, g', b, rfl, rfl, hb, hg', hdefined⟩
    obtain ⟨_, hmem⟩ := extractedGVs_eq_ok hGVs
    obtain ⟨w, hw, hreach⟩ := (hmem _).mp hz
    have hF : .function g' ∈ GVs := (hmem _).mpr ⟨w, hw, hreach.tail hcall⟩
    exact ⟨g, g', b, rfl, rfl, by rw [hbody g hz, hb],
      Code.directCallees_of_types (fun t ht => (htype g' hdefined hF).trans ht) hg',
      by rw [hbody g' hF, hdefined]⟩

/-- Extracting functions by name from what an earlier extraction left defines what extracting
them at once does, if the earlier one took them along and all three can be done. -/
theorem LLVMExtract_stages (hL : L.Documented) (htypes : L.KeepsTypes)
    (hblocks : x.ExtractBlocks = []) (hdelete : x.DeleteFn = false) {x' : ExtractOptions}
    (hblocks' : x'.ExtractBlocks = []) (hdelete' : x'.DeleteFn = false)
    (hregex' : x'.ExtractRegExpFuncs = []) {ExtractFuncs' ExtractRegExpGlobals' : List String}
    (hfirst : CanExtract x L ExtractFuncs ExtractRegExpGlobals true M)
    (htaken : ∀ F ∈ ExtractFuncs',
      Extracted x L ExtractFuncs ExtractRegExpGlobals true M (.function F))
    (hsecond : CanExtract x' L ExtractFuncs' ExtractRegExpGlobals' true
      (LLVMExtract x L M ExtractFuncs ExtractRegExpGlobals true).module)
    (honce : CanExtract x' L ExtractFuncs' ExtractRegExpGlobals' true M) (F : String) :
    (LLVMExtract x' L (LLVMExtract x L M ExtractFuncs ExtractRegExpGlobals true).module
      ExtractFuncs' ExtractRegExpGlobals' true).module.bodyOf F =
      (LLVMExtract x' L M ExtractFuncs' ExtractRegExpGlobals' true).module.bodyOf F := by
  obtain ⟨_, GVs, hGVs, _⟩ := (LLVMExtract_reduces_iff hL).mpr hfirst
  obtain ⟨_, GVs₁, hGVs₁, _⟩ := (LLVMExtract_reduces_iff hL).mpr hsecond
  obtain ⟨_, GVs₂, hGVs₂, _⟩ := (LLVMExtract_reduces_iff hL).mpr honce
  obtain ⟨_, hmem⟩ := extractedGVs_eq_ok hGVs
  obtain ⟨hselect₁, hmem₁⟩ := extractedGVs_eq_ok hGVs₁
  obtain ⟨hselect₂, hmem₂⟩ := extractedGVs_eq_ok hGVs₂
  have hclosed (a b : GlobalValue) (ha : a ∈ GVs) (hb : b ∈ M.callees a) : b ∈ GVs := by
    obtain ⟨w, hw, hreach⟩ := (hmem a).mp ha
    exact (hmem b).mpr ⟨w, hw, hreach.tail hb⟩
  have hreach (n : String) (hn : n ∈ ExtractFuncs') (b : GlobalValue) :=
    reflTransGen_iff_of_closed (S := {y | y ∈ GVs}) (b := b) hclosed
      (fun _ _ => mem_callees_LLVMExtract hL htypes hblocks hdelete hfirst hGVs)
      ((hmem _).mpr (htaken n hn))
  have hsame : .function F ∈ GVs₁ ↔ .function F ∈ GVs₂ := by
    refine ((hmem₁ _).trans (function_extracted_iff hblocks' hregex' hselect₁)).trans ?_
    refine Iff.trans ?_ ((hmem₂ _).trans (function_extracted_iff hblocks' hregex' hselect₂)).symm
    exact exists_congr fun n => and_congr_right fun hn => hreach n hn _
  rw [bodyOf_LLVMExtract hL hblocks' hdelete' hGVs₁ (hsecond.kept _ hGVs₁),
    bodyOf_LLVMExtract hL hblocks' hdelete' hGVs₂ (honce.kept _ hGVs₂)]
  by_cases hF : .function F ∈ GVs₂
  · rw [if_pos (hsame.mpr hF), if_pos hF,
      bodyOf_LLVMExtract hL hblocks hdelete hGVs (hfirst.kept _ hGVs)]
    obtain ⟨n, hn, hnF⟩ := (function_extracted_iff hblocks' hregex' hselect₂).mp ((hmem₂ _).mp hF)
    obtain ⟨w, hw, hwn⟩ := htaken n hn
    rw [if_pos ((hmem _).mpr ⟨w, hw, hwn.trans hnF⟩)]
  · rw [if_neg (mt hsame.mp hF), if_neg hF]

end Extraction

/-- A function that calls another one by name and its argument through a pointer, a function that
nothing calls, and a global that nothing reads. -/
def callbackModule : Module where
  functions := [
    { name := "f", params := [.ptr],
      body := some
        { entry := "entry"
          code :=
            .instr (.call { dst := none, callee := .func "helper", args := [] }) <|
            .instr (.call { dst := none, callee := .arg 0 0, args := [] }) <|
            .instr (.term (.ret none)) .stop
          closed := rfl } },
    { name := "helper", params := [], body := some returnBody },
    { name := "other", params := [], body := some returnBody }]
  globals := [{ name := "table", initializer := some (.constantInt 0) }]

theorem keptAlive_plainExtractPasses {x : ExtractOptions} {GVs : List GlobalValue} {M : Module} :
    KeptAlive x plainExtractPasses GVs M := fun _ _ _ _ _ _ _ => rfl

theorem canExtract_plainExtractPasses {x : ExtractOptions} {M : Module}
    {ExtractFuncs ExtractRegExpGlobals : List String} {Recursive : Bool}
    (h : (LLVMExtract x plainExtractPasses M ExtractFuncs ExtractRegExpGlobals Recursive).returned =
      0) : CanExtract x plainExtractPasses ExtractFuncs ExtractRegExpGlobals Recursive M :=
  have hcan := (LLVMExtract_returned dropsBodies_plainExtractPasses Recursive).mp h
  ⟨hcan.1, hcan.2, fun _ _ => keptAlive_plainExtractPasses⟩

theorem keepsTypes_plainExtractPasses : plainExtractPasses.KeepsTypes where
  extractGV GVs del keep M F _ := by
    simp only [plainExtractPasses, Module.functionType, M.getFunction_extract, Option.map_map]
    congr 1
    funext f
    simp only [Function.comp, Function.extract]
    split <;> rfl
  globalDCE _ _ _ := rfl
  strip _ _ _ := rfl

/-- The heap in which a global holds a value. -/
def heapWith (g : String) (v : Val) : Heap := emptyHeap.writes [((.global g, 0), v)]

theorem agreeBut_heapWith {G : String → Bool} {g : String} (hg : G g = true) (v : Val) :
    AgreeBut G emptyHeap (heapWith g v) where
  next := rfl
  mem a ha := by
    have hne : a ≠ (.global g, 0) := by
      rintro rfl
      simp [Loc.isIn, hg] at ha
    exact (Function.update_of_ne hne v emptyHeap.mem).symm

/-- The argument is a function of the host. -/
theorem LLVMExtract_sameBut_callback :
    SameBut (callbackModule.otherContents
        (LLVMExtract {} plainExtractPasses callbackModule ["f"] [] true).module)
      (callFunction cellMachine callbackModule "f" [.func "host"] emptyHeap 3)
      (callFunction cellMachine
        (LLVMExtract {} plainExtractPasses callbackModule ["f"] [] true).module "f" [.func "host"]
        (heapWith "table" (.int 1)) 3) := by
  have hhost : ∀ e ∈ (callFunction cellMachine callbackModule "f" [.func "host"] emptyHeap 3).trace,
      ∀ g ∈ e.2.unfollowed callbackModule, callbackModule.bodyOf g = none := by decide +kernel
  exact LLVMExtract_sameBut documented_plainExtractPasses rfl rfl
    (fun _ _ => keptAlive_plainExtractPasses) rfl
    ⟨.function "f", ⟨by decide, .inl List.mem_cons_self⟩, .refl⟩
    (agreeBut_heapWith (by decide +kernel) _) (fun e he g hg => .inl (hhost e he g hg))
    (by decide +kernel)

/-- The function that is called, on its own. -/
theorem LLVMExtract_stages_callback :
    (LLVMExtract {} plainExtractPasses
      (LLVMExtract {} plainExtractPasses callbackModule ["f"] [] true).module
      ["helper"] [] true).module.bodyOf "f" =
    (LLVMExtract {} plainExtractPasses callbackModule ["helper"] [] true).module.bodyOf "f" := by
  have hwanted : Wanted {} plainExtractPasses ["f"] [] callbackModule (.function "f") :=
    ⟨by decide, .inl List.mem_cons_self⟩
  have hcall : .function "helper" ∈ callbackModule.callees (.function "f") := by decide +kernel
  refine LLVMExtract_stages documented_plainExtractPasses keepsTypes_plainExtractPasses rfl rfl rfl
    rfl rfl (canExtract_plainExtractPasses (by decide +kernel)) (fun F hF => ?_)
    (canExtract_plainExtractPasses (by decide +kernel))
    (canExtract_plainExtractPasses (by decide +kernel)) "f"
  obtain rfl := List.mem_singleton.mp hF
  exact ⟨_, hwanted, .single hcall⟩

/-! ## From the input to the output -/

theorem SameBut.effects {G : String → Bool} {r s : Run Traced (Val × Heap)} (h : SameBut G r s)
    (M : Module) : effects M r.trace = effects M s.trace := by
  have hshown (t : List Traced) : Squanchy.effects M t =
      (shownEvents t).filterMap fun e => effectOf M (own e) := by
    rw [shownEvents, List.filterMap_filterMap]
    refine List.filterMap_congr ?_
    rintro ⟨n, e⟩ _
    cases e <;> rfl
  rw [hshown, hshown, h.shown]

theorem StandsFor.congr {M : Module} {f g g' : Nat → Run Traced (Val × Heap)}
    (h : StandsFor M f g) {G : String → Bool} (hg : ∀ n, SameBut G (g n) (g' n)) :
    StandsFor M f g' where
  agree := h.agree.trans (.of_related
    (fun n _ => ⟨n, (hg n).result.mono fun _ _ hxy => hxy.1⟩)
    (fun n _ => ⟨n, (hg n).result.mono fun _ _ hxy => hxy.1⟩))
  shows n := (hg n).effects M ▸ h.shows n
  ended n hn := by
    obtain ⟨n', heffects, hend⟩ := h.ended n hn
    exact ⟨n', heffects.trans ((hg n').effects M), hend.trans (hg n').result fun _ _ _ hxy hyz =>
      hxy.trans hyz.1⟩

/-- The function that a call through a pointer reaches. -/
def Event.throughPointer : Event → Option String
  | .call none g _ => some g
  | _ => none

/-- Calls through pointers show. -/
theorem throughPointer_effects {M : Module} {t : List Traced} {g : String} :
    (∃ e ∈ effects M t, g ∈ e.throughPointer) ↔ ∃ e ∈ t, g ∈ e.2.throughPointer := by
  have hview (e : Traced) (hg : g ∈ e.2.throughPointer) : effectOf M e = some e.2 := by
    obtain ⟨n, e⟩ := e
    rcases e with ⟨_ | _, _, _⟩ | _ | _ | _ | _ <;> first | rfl | cases hg
  have hback (e : Traced) (e' : Event) (he : effectOf M e = some e')
      (hg : g ∈ e'.throughPointer) : g ∈ e.2.throughPointer := by
    obtain ⟨n, e⟩ := e
    rcases e with ⟨_ | _, _, _⟩ | _ | _ | ⟨_ | _, _⟩ | _ <;> grind [effectOf, Event.throughPointer]
  constructor
  · rintro ⟨e', he', hg⟩
    obtain ⟨e, he, heff⟩ := List.mem_filterMap.mp he'
    exact ⟨e, he, hback e e' heff hg⟩
  · rintro ⟨e, he, hg⟩
    exact ⟨e.2, List.mem_filterMap.mpr ⟨e, he, hview e hg⟩, hg⟩

/-- A call that is not followed goes through a pointer or leads to the host, unless it names a
defined function of another type. -/
theorem Event.throughPointer_of_unfollowed {M : Module} {e : Event} {g : String}
    (hg : g ∈ e.unfollowed M) (he : e.mistyped M = false) :
    g ∈ e.throughPointer ∨ M.bodyOf g = none := by
  have hnone (g : String) : (M.bodyOf g).isSome = false ↔ M.bodyOf g = none := by simp
  rcases e with ⟨_ | t, g', _⟩ | _ | _ | _ | _ <;>
    grind [Event.unfollowed, Event.mistyped, Event.throughPointer]

/-- Nothing but the tool's own passes: optimization is off, and what is extracted is not cut
into blocks or deleted. -/
structure OwnPasses (D : DriverOptions) (T : Toolchain) : Prop where
  lists : D.PrintFunctions = false
  optimizers : T.optimizers = .off
  optimizeModule : T.optimizeModule = some
  instanceRefs : D.options.ReplaceInstanceRefs = false
  recursive : D.ExtractFunction = true → D.ExtractRecursive = true
  blocks : D.ExtractFunction = true → D.extract.ExtractBlocks = []
  delete : D.ExtractFunction = true → D.extract.DeleteFn = false

/-- What is selected of the processed module outlives the clean-up. -/
def SelectionKept (D : DriverOptions) (T : Toolchain) (M : Module) : Prop :=
  D.ExtractFunction = true → ∀ GVs, extractedGVs D.extract T.extractPasses M D.FunctionNames
    ["data_segment_data.*"] D.ExtractRecursive = .ok GVs →
      KeptAlive D.extract T.extractPasses GVs M

section Driver

variable {D : DriverOptions} {T : Toolchain} {R M : Module} {out : Outcome} {m : Machine}
  {F : String} {p : Val} {args : List Val} {h h' : Heap}

/-- Declarations that are added change no run. -/
theorem sharedCode_withAdded (M : Module) : SharedCode (fun _ => true) M M.withAdded where
  bodyOf g _ := M.bodyOf_withAdded g
  closed _ _ _ _ _ _ := rfl

theorem extractStep_sameBut (hT : T.extractPasses.Documented) (hown : OwnPasses D T)
    (hkept : SelectionKept D T M.withAdded) (hF : F ∈ D.FunctionNames)
    (hbody : (M.bodyOf F).isSome = true) {n : Nat}
    (hcalls : D.ExtractFunction = true → ∀ e ∈ (callFunction m M F args h n).trace,
      ∀ g ∈ e.2.unfollowed M, M.bodyOf g = none ∨
        ∃ r ∈ D.extract.ExtractRegExpFuncs, T.extractPasses.matches r g = true) :
    SameBut (fun _ => false) (callFunction m M F args h n)
      (callFunction m (extractStep D T.extractPasses M.withAdded).2.2 F args h n) := by
  have hreads := readsNone_false (callFunction m M F args h n).trace
  unfold extractStep
  split
  · rename_i hextract
    have hdefined {g : String} (hg : (M.bodyOf g).isSome = true) :
        .function g ∈ M.withAdded.globalValues :=
      Module.mem_globalValues_of_defines (by rwa [Module.defines, M.bodyOf_withAdded])
    have hkept := hkept hextract
    rw [hown.recursive hextract] at hkept ⊢
    obtain ⟨S, hshared, hS⟩ :=
      exists_sharedCode hT (hown.blocks hextract) (hown.delete hextract) hkept
    refine callFunction_shared (hshared.of_declares M.bodyOf_withAdded
      fun _ _ => Module.functionType_withAdded) ?_ (.refl _ h) (fun e he g hg => hS g ?_) hreads
    · exact hS F (.inr ⟨_, ⟨hdefined hbody, .inl hF⟩, .refl⟩)
    · rw [M.bodyOf_withAdded]
      rcases hcalls hextract e he g hg with hnone | hmatch
      · exact .inl hnone
      · cases hb : M.bodyOf g with
        | none => exact .inl rfl
        | some b => exact .inr ⟨_, ⟨hdefined (by simp [hb]), .inr (.inl hmatch)⟩, .refl⟩
  · exact callFunction_shared (sharedCode_withAdded M) rfl (.refl _ h) (fun _ _ _ _ => rfl) hreads

/-- In the module that a successful run writes, a listed function stands for its original, as
long as the original calls no listed function, reads back nothing that is deleted, reads no
global whose initializer is not written, and is led only to the host and to functions that the
command line selects where it does not call by name. -/
theorem deobfuscate_standsFor (hT : T.extractPasses.Documented) (hown : OwnPasses D T)
    (hnd : D.FunctionNames.Nodup) (hasm : (linkRuntime M R).AsmBarriers m)
    (hrun : deobfuscate D T R M = .ok out) (hret : out.returned = true)
    (hkept : ∀ M₁, deobfuscateFunctions D.options T.optimizers T.inlineRuns R M D.FunctionNames =
      .ok M₁ → SelectionKept D T M₁.withAdded)
    (hF : F ∈ D.FunctionNames)
    (hh : AgreeBut ((linkRuntime M R).otherContents out.module) h h')
    (hclear : ∀ n, Clear D.FunctionNames
      (originalCall D.options m (linkRuntime M R) F p args h n).trace)
    (hreads : ∀ n, ReadsNone ((linkRuntime M R).otherContents out.module)
      (originalCall D.options m (linkRuntime M R) F p args h n).trace)
    (htyped : ∀ n, CallsTyped (linkRuntime M R)
      (originalCall D.options m (linkRuntime M R) F p args h n).trace)
    (hpointers : D.ExtractFunction = true →
      ∀ n, ∀ e ∈ (originalCall D.options m (linkRuntime M R) F p args h n).trace,
        ∀ g ∈ e.2.throughPointer, (linkRuntime M R).bodyOf g = none ∨
          ∃ r ∈ D.extract.ExtractRegExpFuncs, T.extractPasses.matches r g = true) :
    StandsFor (linkRuntime M R) (originalCall D.options m (linkRuntime M R) F p args h)
      (callFunction m out.module F (p :: args) h') := by
  obtain ⟨M₁, hM₁, hopt, _⟩ := deobfuscate_eq_ok hown.lists hrun hret
  have hkept := hkept M₁ hM₁
  rw [hown.optimizers] at hM₁
  rw [hown.optimizeModule, Option.some_inj] at hopt
  obtain ⟨done, hdone, hp⟩ :=
    deobfuscated_of_ok hasm hown.instanceRefs hnd (List.ne_nil_of_mem hF) hM₁
  have hFd : F ∈ done := (hdone F).mpr hF
  have hX (g : String) (hg : g ∈ done) := (hdone g).mp hg
  have hstands := hp.standsFor hX hFd hh hclear hreads
  have hundefined {g : String} (hg : (linkRuntime M R).bodyOf g = none) : M₁.bodyOf g = none := by
    have hgd : g ∉ done := by
      intro hgd
      obtain ⟨b, _, _, hb, _⟩ := hp.rewritten g hgd
      simp [hb] at hg
    have hsame := hp.others.isSome_bodyOf hgd
    rw [hg] at hsame
    simpa using hsame
  rw [← hopt]
  refine hstands.congr fun n => extractStep_sameBut hT hown hkept hF ?_ ?_
  · obtain ⟨b, c, b', _, _, hb', _⟩ := hp.rewritten F hFd
    simp [hb']
  · intro hextract e he g hg
    have htype : e.2.mistyped (linkRuntime M R) = false :=
      hp.callsTyped_all hX hFd hh hclear hreads htyped n e he
    have hunfollowed : g ∈ e.2.unfollowed (linkRuntime M R) := by
      simpa only [Event.unfollowed, hp.types] using hg
    rcases Event.throughPointer_of_unfollowed hunfollowed htype with hg | hg
    · obtain ⟨e', he', hg'⟩ := throughPointer_effects.mpr ⟨e, he, hg⟩
      obtain ⟨e₁, he₁, hg₁⟩ :=
        throughPointer_effects.mp ⟨e', (hstands.shows n).subset he', hg'⟩
      rcases hpointers hextract n e₁ he₁ g hg₁ with hnone | hmatch
      · exact .inl (hundefined hnone)
      · exact .inr hmatch
    · exact .inl (hundefined hg)

end Driver

/-- The guarded module with a data segment. -/
def guardedSegmentModule : Module :=
  { guardedModule with
    globals := { name := "data_segment_data_w2c_squanchy_d0", initializer := some (.other "") } ::
      guardedModule.globals }

theorem asmBarriers_guardedSegmentModule :
    (linkRuntime guardedSegmentModule trapRuntime).AsmBarriers cellMachine :=
  fun g b hb => asmBarriers_guardedModule g b hb

def recursiveDriver : DriverOptions where
  FunctionNames := ["w2c_squanchy_f0"]
  ExtractRecursive := true

def guardedOutcome : Outcome :=
  (deobfuscate recursiveDriver plainToolchain trapRuntime guardedSegmentModule).toOption.getD
    { returned := false, module := guardedSegmentModule }

/-- What is written holds the processed function alone, and it returns the value. The table has
lost its initializer, and may hold anything. -/
theorem deobfuscate_standsFor_load :
    StandsFor (linkRuntime guardedSegmentModule trapRuntime)
      (originalCall {} cellMachine (linkRuntime guardedSegmentModule trapRuntime)
        "w2c_squanchy_f0" .null [] emptyHeap)
      (callFunction cellMachine guardedOutcome.module "w2c_squanchy_f0" [.null]
        (heapWith "FUNCREF_TABLE" (.int 1))) := by
  let original := originalCall {} cellMachine (linkRuntime guardedSegmentModule trapRuntime)
    "w2c_squanchy_f0" .null [] emptyHeap
  let linked := linkRuntime guardedSegmentModule trapRuntime
  have hreturned : returned (original 6) = some (.int 7) := by decide +kernel
  have hclear : Clear ["w2c_squanchy_f0"] (original 6).trace := by decide +kernel
  have hreads : ReadsNone (linked.otherContents guardedOutcome.module) (original 6).trace := by
    decide +kernel
  have htyped : ∀ e ∈ (original 6).trace, e.2.mistyped linked = false := by decide +kernel
  have hpointers : ∀ e ∈ (original 6).trace, e.2.throughPointer = none := by decide +kernel
  obtain ⟨h, hdone⟩ := returned_eq_some.mp hreturned
  have hpre (n : Nat) : (original n).trace <+: (original 6).trace :=
    Ascending.trace_prefix (f := original) (callOnFreshInstance_ascending _ _ _)
      (by rw [hdone]; simp) n
  have hown : OwnPasses recursiveDriver plainToolchain :=
    ⟨rfl, rfl, rfl, rfl, fun _ => rfl, fun _ => rfl, fun _ => rfl⟩
  exact deobfuscate_standsFor (M := guardedSegmentModule) documented_plainExtractPasses hown
    (by decide) asmBarriers_guardedSegmentModule (ok_getD (by decide +kernel) _)
    (by decide +kernel) (fun _ _ _ _ _ => keptAlive_plainExtractPasses) List.mem_cons_self
    (agreeBut_heapWith (by decide +kernel) _) (fun n => hclear.of_isPrefix (hpre n))
    (fun n => hreads.of_isPrefix (hpre n)) (fun n e he => htyped e ((hpre n).subset he))
    fun _ n e he g hg => by simp [hpointers e ((hpre n).subset he)] at hg

end Squanchy
