import Squanchy.IR.Syntax
import Squanchy.Library.AnalysisCache
import Squanchy.Library.Starts

/-!
# SiMBA in the custom pipeline

`optimizeFunctionWithCustomPipeline` runs one list of function passes again and again on one
function, with one analysis manager for all rounds. The list begins and ends with `SiMBAPass`,
which replaces expressions and reports that it has preserved all analyses. Between two rounds,
and before the passes that follow it, the manager then holds what the analyses computed on the
function as it was before.
-/

namespace Squanchy

open Library

variable {κ : Type} {Result : κ → Type}

structure OptimizationGuide where
  MBAFound : Bool := false
  HasOptimized : Bool := false
  SimbaCallCounter : Nat := 0

/-- `Parser.simplify`: how many expressions were replaced, and the function after that. -/
abbrev Simplify := Function → Int × Function

/-- The parser edits the function only where it counts a replacement. -/
def OnlyEditsIfFound (simplify : Simplify) : Prop :=
  ∀ F, (simplify F).1 ≤ 0 → (simplify F).2 = F

/-- `PreservedAnalyses::all`. -/
def allPreserved (_ : κ) : Bool := true

/-- `SiMBAPass::run`. -/
def SiMBAPass (simplify : Simplify) (F : Function) (OG : OptimizationGuide) :
    Function × OptimizationGuide × (κ → Bool) :=
  if F.isDeclaration then (F, OG, allPreserved)
  else
    let OG := { OG with MBAFound := false }
    let (MBACount, F) := simplify F
    let OG := if 0 < MBACount then { OG with HasOptimized := false, MBAFound := true } else OG
    (F, { OG with SimbaCallCounter := OG.SimbaCallCounter + 1 }, allPreserved)

/-- What the rounds share: the function, its cached analyses, and the guide. -/
structure PipelineState (Result : κ → Type) where
  F : Function
  FAM : Cache Result
  OG : OptimizationGuide

/-- A pass of the list: SiMBA, or one of LLVM's. -/
inductive PipelinePass (Result : κ → Type) where
  | SiMBA
  | llvm (P : Pass Function Result)

def PipelinePass.step (simplify : Simplify) :
    PipelinePass Result → PipelineState Result → PipelineState Result
  | .SiMBA, s =>
    let (F, OG, preserved) := SiMBAPass simplify s.F s.OG
    ⟨F, s.FAM.invalidate preserved, OG⟩
  | .llvm P, s => ⟨(P.run s.F s.FAM).1, (P.run s.F s.FAM).2, s.OG⟩

/-- The list of passes; LLVM's depend on `SimplifyCFG`. -/
def customPipeline (passes : List (Pass Function Result)) : List (PipelinePass Result) :=
  .SiMBA :: passes.map .llvm ++ [.SiMBA]

/-- The loop, with the state in which each pass starts. Another round follows as long as one
changes the instruction count, or the last SiMBA found something. -/
def runLoop (simplify : Simplify) (passes : List (Pass Function Result)) :
    Nat → PipelineState Result → List (PipelinePass Result × PipelineState Result)
  | 0, _ => []
  | fuel + 1, s =>
    let s' := (customPipeline passes).foldl (fun s P => P.step simplify s) s
    let DoRun := s'.F.getInstructionCount != s.F.getInstructionCount || s'.OG.MBAFound
    starts (·.step simplify) (customPipeline passes) s ++
      if DoRun then runLoop simplify passes fuel s' else []

def optimizeFunctionWithCustomPipeline (OptLevel : Int) (simplify : Simplify)
    (passes : Bool → List (Pass Function Result)) (SimplifyCFG : Bool) (fuel : Nat)
    (F : Function) : List (PipelinePass Result × PipelineState Result) :=
  if OptLevel = 0 then []
  else runLoop simplify (passes SimplifyCFG) fuel ⟨F, .empty, {}⟩

/-! ## Stale results -/

section Fresh

variable (compute : ∀ k, Function → Result k) (simplify : Simplify)

/-- The cached results are what the analyses compute on the function as it is. -/
def PipelineState.Fresh (s : PipelineState Result) : Prop := s.FAM.Fresh compute s.F

/-- Where an expression is replaced, no cached analysis has another result after that. -/
def Harmless (s : PipelineState Result) : Prop :=
  s.F.isDeclaration = false → 0 < (simplify s.F).1 →
    ∀ k, (s.FAM k).isSome = true → compute k (simplify s.F).2 = compute k s.F

variable {compute simplify}

/-- SiMBA keeps the cache fresh exactly if its replacement is harmless. -/
theorem fresh_step_SiMBA_iff (hsimplify : OnlyEditsIfFound simplify) {s : PipelineState Result}
    (hs : s.Fresh compute) :
    (PipelinePass.step simplify .SiMBA s).Fresh compute ↔ Harmless compute simplify s := by
  have hall : (PipelinePass.step simplify .SiMBA s).Fresh compute ↔
      ∀ k, (s.FAM k).isSome = true →
        compute k (PipelinePass.step simplify .SiMBA s).F = compute k s.F := by
    have hcache : (PipelinePass.step simplify .SiMBA s).FAM = s.FAM.invalidate fun _ => true := by
      simp only [PipelinePass.step, SiMBAPass]
      cases s.F.isDeclaration <;> rfl
    rw [PipelineState.Fresh, hcache]
    exact fresh_of_preserved_all_iff hs
  rw [hall, Harmless]
  cases hdecl : s.F.isDeclaration with
  | true => simp [PipelinePass.step, SiMBAPass, hdecl]
  | false =>
    have hF : (PipelinePass.step simplify .SiMBA s).F = (simplify s.F).2 := by
      simp [PipelinePass.step, SiMBAPass, hdecl]
    rw [hF]
    by_cases hcount : 0 < (simplify s.F).1
    · simp [hcount]
    · simp [hcount, hsimplify s.F (Int.not_lt.mp hcount)]

/-- What each pass of the list does to a fresh cache. -/
theorem fresh_step_iff (hsimplify : OnlyEditsIfFound simplify)
    {passes : List (Pass Function Result)} (hpasses : ∀ P ∈ passes, P.ReportsCorrectly compute)
    {p : PipelinePass Result} (hp : p ∈ customPipeline passes) {s : PipelineState Result}
    (hs : s.Fresh compute) : (p.step simplify s).Fresh compute ↔
      (p = .SiMBA → Harmless compute simplify s) := by
  cases p with
  | SiMBA => simpa using fresh_step_SiMBA_iff hsimplify hs
  | llvm P =>
    have hP : P ∈ passes := by simpa [customPipeline] using hp
    exact iff_of_true ((hpasses P hP).run_fresh hs) (by rintro ⟨⟩)

/-- The rounds are one run over the list of passes, repeated. -/
theorem runLoop_eq_starts (simplify : Simplify) (passes : List (Pass Function Result))
    (fuel : Nat) (s : PipelineState Result) : ∃ n, runLoop simplify passes fuel s =
      starts (·.step simplify) (List.replicate n (customPipeline passes)).flatten s := by
  induction fuel generalizing s with
  | zero => exact ⟨0, rfl⟩
  | succ fuel ih =>
    unfold runLoop
    dsimp only
    split
    · obtain ⟨n, hn⟩ := ih ((customPipeline passes).foldl (fun s P => P.step simplify s) s)
      exact ⟨n + 1, by rw [hn, List.replicate_succ, List.flatten_cons, starts_append]⟩
    · exact ⟨1, by simp⟩

end Fresh

/-- All passes of all rounds start on fresh results exactly if SiMBA is harmless wherever
another pass follows it. -/
theorem startsFresh_iff {compute : ∀ k, Function → Result k} {simplify : Simplify}
    {passes : Bool → List (Pass Function Result)} (hsimplify : OnlyEditsIfFound simplify)
    (SimplifyCFG : Bool) (hpasses : ∀ P ∈ passes SimplifyCFG, P.ReportsCorrectly compute)
    (OptLevel : Int) (fuel : Nat) (F : Function) :
    (∀ x ∈ optimizeFunctionWithCustomPipeline OptLevel simplify passes SimplifyCFG fuel F,
      x.2.Fresh compute) ↔
    ∀ x ∈ (optimizeFunctionWithCustomPipeline OptLevel simplify passes SimplifyCFG fuel
      F).dropLast, x.1 = .SiMBA → Harmless compute simplify x.2 := by
  unfold optimizeFunctionWithCustomPipeline
  split
  · simp
  · obtain ⟨n, hn⟩ := runLoop_eq_starts simplify (passes SimplifyCFG) fuel ⟨F, .empty, {}⟩
    have hinit : PipelineState.Fresh compute ⟨F, .empty, {}⟩ := Cache.fresh_empty
    have hstep : ∀ p ∈ (List.replicate n (customPipeline (passes SimplifyCFG))).flatten,
        ∀ s, s.Fresh compute → ((p.step simplify s).Fresh compute ↔
          (p = .SiMBA → Harmless compute simplify s)) := by
      intro p hp s hs
      obtain ⟨round, hround, hp⟩ := List.mem_flatten.mp hp
      obtain rfl := List.eq_of_mem_replicate hround
      exact fresh_step_iff hsimplify hpasses hp hs
    rw [hn]
    exact forall_starts_iff hstep hinit

/-! ## A stale instruction count -/

/-- No run of the pipeline starts a pass on a stale result. -/
def CachesStayFresh : Prop :=
  ∀ (κ : Type) (Result : κ → Type) (compute : ∀ k, Function → Result k) (simplify : Simplify)
    (passes : Bool → List (Pass Function Result)) (SimplifyCFG : Bool) (OptLevel : Int)
    (fuel : Nat) (F : Function), OnlyEditsIfFound simplify →
    (∀ P ∈ passes SimplifyCFG, P.ReportsCorrectly compute) →
    ∀ x ∈ optimizeFunctionWithCustomPipeline OptLevel simplify passes SimplifyCFG fuel F,
      x.2.Fresh compute

/-- The one analysis of the sample: the instruction count. -/
def countInstructions (_ : Unit) (F : Function) : Nat := F.getInstructionCount

/-- A pass that asks for the instruction count and edits nothing. -/
def countingPass : Pass Function fun _ : Unit => Nat := fun F FAM =>
  (F, (FAM.getResult countInstructions F ()).2, allPreserved)

theorem reportsCorrectly_countingPass : countingPass.ReportsCorrectly countInstructions :=
  fun _ _ h k r _ hr => (h.getResult ()).2 k r hr

/-- A parser that finds one expression of its kind at a time, and drops it. -/
def dropFirst : Simplify := fun F =>
  match F.body with
  | some ⟨entry, .instr (.simple (.op _ _ "mba" [])) k, h⟩ =>
    (1, { F with body := some ⟨entry, k, by simpa [Code.inScope, Code.all, Instr.operands,
      Simple.operands] using h⟩ })
  | _ => (0, F)

theorem onlyEditsIfFound_dropFirst : OnlyEditsIfFound dropFirst := by
  intro F hF
  unfold dropFirst at hF ⊢
  split at hF
  · simp at hF
  · rfl

/-- Two expressions that the parser finds, and a return. -/
def mbaFunction : Function where
  name := "w2c_squanchy_f0"
  params := [.ptr]
  body := some ⟨"", .instr (.simple (.op 0 (.int 32) "mba" [])) <|
    .instr (.simple (.op 1 (.int 32) "mba" [])) <| .instr (.term (.ret none)) .stop, rfl⟩

/-- The second SiMBA drops the other expression after the count was cached: the next round
starts with the count from before. -/
theorem late_SiMBA_leaves_stale_count : ¬ CachesStayFresh := by
  intro hall
  have hfresh := hall Unit (fun _ => Nat) countInstructions dropFirst (fun _ => [countingPass])
    false 3 2 mbaFunction onlyEditsIfFound_dropFirst
    (by simpa using reportsCorrectly_countingPass)
  have hstale : (optimizeFunctionWithCustomPipeline 3 dropFirst (fun _ => [countingPass]) false 2
      mbaFunction).any (fun x => decide (x.2.FAM () = some 2 ∧
        countInstructions () x.2.F = 1)) = true := by decide +kernel
  obtain ⟨x, hx, hcount⟩ := List.any_eq_true.mp hstale
  obtain ⟨hcached, hcurrent⟩ := of_decide_eq_true hcount
  have hsame := hfresh x hx () 2 hcached
  rw [hcurrent] at hsame
  exact absurd hsame (by decide)

/-- A function in which the parser finds nothing. -/
def returnFunction : Function := { mbaFunction with body := some returnBody }

theorem startsFresh_iff_returnFunction :
    (∀ x ∈ optimizeFunctionWithCustomPipeline 3 dropFirst (fun _ => [countingPass]) false 2
        returnFunction, x.2.Fresh countInstructions) ↔
      ∀ x ∈ (optimizeFunctionWithCustomPipeline 3 dropFirst (fun _ => [countingPass]) false 2
        returnFunction).dropLast, x.1 = .SiMBA → Harmless countInstructions dropFirst x.2 :=
  startsFresh_iff onlyEditsIfFound_dropFirst false (by simpa using reportsCorrectly_countingPass)
    3 2 _

/-! ## When another round follows -/

/-- One run of the list of passes, with the states between its three parts. -/
structure PipelineRun (Result : κ → Type) where
  start : PipelineState Result
  afterEarly : PipelineState Result
  afterLLVM : PipelineState Result
  finish : PipelineState Result

/-- Each of the two SiMBA passes may make another change to the function. -/
def runPasses (early late : Simplify) (passes : List (Pass Function Result))
    (s : PipelineState Result) : PipelineRun Result :=
  let afterEarly := PipelinePass.step early .SiMBA s
  let afterLLVM := passes.foldl (fun s P => PipelinePass.step early (.llvm P) s) afterEarly
  ⟨s, afterEarly, afterLLVM, PipelinePass.step late .SiMBA afterLLVM⟩

/-- `InstCountAfter != InstCountBefore`. -/
def PipelineRun.countChanged (r : PipelineRun Result) : Bool :=
  r.finish.F.getInstructionCount != r.start.F.getInstructionCount

def PipelineRun.DoRun (r : PipelineRun Result) : Bool := r.countChanged || r.finish.OG.MBAFound

/-- With one parser for both SiMBA passes, a run is that of the list of passes. -/
theorem foldl_customPipeline (simplify : Simplify) (passes : List (Pass Function Result))
    (s : PipelineState Result) :
    (customPipeline passes).foldl (fun s P => P.step simplify s) s =
      (runPasses simplify simplify passes s).finish := by
  simp [customPipeline, runPasses, List.foldl_append, List.foldl_map]

/-- The loop over the list of passes goes on by the same decision. -/
theorem runLoop_succ (simplify : Simplify) (passes : List (Pass Function Result)) (fuel : Nat)
    (s : PipelineState Result) : runLoop simplify passes (fuel + 1) s =
      starts (·.step simplify) (customPipeline passes) s ++
        if (runPasses simplify simplify passes s).DoRun then
          runLoop simplify passes fuel (runPasses simplify simplify passes s).finish
        else [] := by
  simp only [runLoop, foldl_customPipeline]
  rfl

/-- What the passes do in each round. -/
structure PassChoice (Result : κ → Type) where
  early : Nat → Simplify
  llvm : Nat → List (Pass Function Result)
  late : Nat → Simplify

def PassChoice.run (P : PassChoice Result) (n : Nat) (s : PipelineState Result) :
    PipelineRun Result := runPasses (P.early n) (P.late n) (P.llvm n) s

/-- The state in which round `n` starts, if the loop comes to it. -/
def roundStart (OptLevel : Int) (P : PassChoice Result) (F : Function) :
    Nat → Option (PipelineState Result)
  | 0 => if OptLevel = 0 then none else some ⟨F, .empty, {}⟩
  | n + 1 => (roundStart OptLevel P F n).bind fun s =>
    if (P.run n s).DoRun then some (P.run n s).finish else none

/-- A SiMBA pass started in `s` replaces an expression. -/
def Replaces (simplify : Simplify) (s : PipelineState Result) : Prop :=
  s.F.isDeclaration = false ∧ 0 < (simplify s.F).1

/-- What the loop is to decide by: another round follows if and only if the last one changed
the count, or one of its SiMBA passes replaced something. -/
structure StopsWhenDone (OptLevel : Int) (P : PassChoice Result) (F : Function) : Prop where
  again : ∀ n s, roundStart OptLevel P F n = some s →
    ((roundStart OptLevel P F (n + 1)).isSome = true ↔ (P.run n s).countChanged = true ∨
      Replaces (P.early n) s ∨ Replaces (P.late n) (P.run n s).afterLLVM)
  last : ∀ n s, roundStart OptLevel P F n = some s → roundStart OptLevel P F (n + 1) = none →
    ¬ Replaces (P.early n) s ∧ ¬ Replaces (P.late n) (P.run n s).afterLLVM

/-- The late SiMBA of the round does not hide what the flag should tell. -/
structure NotHidden (P : PassChoice Result) (n : Nat) (s : PipelineState Result) : Prop where
  /-- Where it has a body to work on and the early one replaced something, it does so too,
  or the count has changed. -/
  early : Replaces (P.early n) s → (P.run n s).afterLLVM.F.isDeclaration = false →
    Replaces (P.late n) (P.run n s).afterLLVM ∨ (P.run n s).countChanged = true
  /-- Where neither of the two has a body to work on, no flag is left from before, or the
  count has changed. -/
  left : s.F.isDeclaration = true → (P.run n s).afterLLVM.F.isDeclaration = true →
    s.OG.MBAFound = true → (P.run n s).countChanged = true

section Flag

variable {simplify : Simplify} {s : PipelineState Result}

theorem MBAFound_step_of_declaration (h : s.F.isDeclaration = true) :
    (PipelinePass.step simplify .SiMBA s).OG.MBAFound = s.OG.MBAFound := by
  simp [PipelinePass.step, SiMBAPass, h]

/-- A SiMBA pass with a body to work on tells whether it has replaced something itself, and
forgets what the flag said before. -/
theorem MBAFound_step_iff (h : s.F.isDeclaration = false) :
    (PipelinePass.step simplify .SiMBA s).OG.MBAFound = true ↔ Replaces simplify s := by
  simp only [PipelinePass.step, SiMBAPass, h, Replaces, true_and]
  by_cases hcount : 0 < (simplify s.F).1 <;> simp [hcount]

theorem not_replaces_of_declaration (h : s.F.isDeclaration = true) : ¬ Replaces simplify s := by
  rintro ⟨hdef, _⟩
  simp [h] at hdef

/-- LLVM's passes do not know the guide. -/
theorem OG_foldl_llvm (passes : List (Pass Function Result)) (s : PipelineState Result) :
    (passes.foldl (fun s P => PipelinePass.step simplify (.llvm P) s) s).OG = s.OG := by
  induction passes generalizing s with
  | nil => rfl
  | cons P passes ih => exact ih _

theorem OG_afterLLVM (early late : Simplify) (passes : List (Pass Function Result))
    (s : PipelineState Result) : (runPasses early late passes s).afterLLVM.OG =
      (PipelinePass.step early .SiMBA s).OG :=
  OG_foldl_llvm passes _

end Flag

theorem roundStart_succ {OptLevel : Int} {P : PassChoice Result} {F : Function} {n : Nat}
    {s : PipelineState Result} (h : roundStart OptLevel P F n = some s) :
    roundStart OptLevel P F (n + 1) =
      if (P.run n s).DoRun then some (P.run n s).finish else none := by
  simp [roundStart, h]

theorem isSome_roundStart_succ {OptLevel : Int} {P : PassChoice Result} {F : Function} {n : Nat}
    {s : PipelineState Result} (h : roundStart OptLevel P F n = some s) :
    (roundStart OptLevel P F (n + 1)).isSome = true ↔
      (P.run n s).countChanged = true ∨ (P.run n s).finish.OG.MBAFound = true := by
  rw [roundStart_succ h]
  cases hrun : (P.run n s).DoRun <;> simp_all [PipelineRun.DoRun]

/-- One round follows the law exactly if its late SiMBA hides nothing. -/
theorem again_iff {OptLevel : Int} {P : PassChoice Result} {F : Function} {n : Nat}
    {s : PipelineState Result} (h : roundStart OptLevel P F n = some s) :
    ((roundStart OptLevel P F (n + 1)).isSome = true ↔ (P.run n s).countChanged = true ∨
      Replaces (P.early n) s ∨ Replaces (P.late n) (P.run n s).afterLLVM) ↔
      NotHidden P n s := by
  have hOG : (P.run n s).afterLLVM.OG = (PipelinePass.step (P.early n) .SiMBA s).OG :=
    OG_afterLLVM _ _ _ _
  have hstep : (P.run n s).finish = PipelinePass.step (P.late n) .SiMBA (P.run n s).afterLLVM :=
    rfl
  rw [isSome_roundStart_succ h]
  cases hlate : (P.run n s).afterLLVM.F.isDeclaration with
  | false =>
    -- the late pass sets the flag anew
    rw [hstep, MBAFound_step_iff hlate]
    constructor
    · intro hlaw
      refine ⟨fun hearly _ => ?_, fun _ hdecl => by simp [hlate] at hdecl⟩
      exact (hlaw.mpr (.inr (.inl hearly))).symm
    · intro hkept
      have := fun hearly => hkept.early hearly hlate
      tauto
  | true =>
    have hflag : (P.run n s).finish.OG.MBAFound =
        (PipelinePass.step (P.early n) .SiMBA s).OG.MBAFound := by
      rw [hstep, MBAFound_step_of_declaration hlate, hOG]
    rw [hflag]
    have hlate' : ¬ Replaces (P.late n) (P.run n s).afterLLVM :=
      not_replaces_of_declaration hlate
    cases hearly : s.F.isDeclaration with
    | false =>
      rw [MBAFound_step_iff hearly]
      refine iff_of_true (by tauto) ⟨fun _ hdef => ?_, fun hdecl => ?_⟩
      · simp [hlate] at hdef
      · simp [hearly] at hdecl
    | true =>
      rw [MBAFound_step_of_declaration hearly]
      have hearly' : ¬ Replaces (P.early n) s := not_replaces_of_declaration hearly
      constructor
      · intro hlaw
        refine ⟨fun hrep => absurd hrep hearly', fun _ _ hfound => ?_⟩
        have := hlaw.mp (.inr hfound)
        tauto
      · intro hkept
        have := hkept.left hearly hlate
        tauto

/-- The loop stops only when a whole run found nothing, exactly if no late SiMBA it comes to
hides what the flag should tell. -/
theorem stopsWhenDone_iff (OptLevel : Int) (P : PassChoice Result) (F : Function) :
    StopsWhenDone OptLevel P F ↔
      ∀ n s, roundStart OptLevel P F n = some s → NotHidden P n s := by
  constructor
  · intro h n s hs
    exact (again_iff hs).mp (h.again n s hs)
  · intro h
    have again := fun n s hs => (again_iff hs).mpr (h n s hs)
    refine ⟨again, fun n s hs hnone => ?_⟩
    have hlaw := again n s hs
    rw [hnone] at hlaw
    simp only [Option.isSome_none, Bool.false_eq_true, false_iff, not_or] at hlaw
    exact hlaw.2

/-- The body with one more instruction in front. -/
def Body.addFirst (b : Body) : Body :=
  b.withCode (.instr (.simple (.op 2 (.int 32) "add" [])) b.code) (by
    simpa [Code.inScope, Code.all, Instr.operands, Simple.operands, Instr.dst, Simple.dst] using
      b.closed)

/-- A pass that adds an instruction to the function. -/
def addingPass : Pass Function fun _ : Unit => Nat := fun F FAM =>
  ({ F with body := F.body.map (·.addFirst) }, FAM, fun _ => false)

def addBack : PassChoice fun _ : Unit => Nat :=
  ⟨fun _ => dropFirst, fun _ => [addingPass], fun _ => dropFirst⟩

/-- The early SiMBA replaces an expression, another pass brings the count back to where it
was, and the late SiMBA, which finds nothing, resets the flag. -/
theorem early_replacement_is_forgotten : ¬ ∀ (κ : Type) (Result : κ → Type) (OptLevel : Int)
    (P : PassChoice Result) (F : Function), StopsWhenDone OptLevel P F := by
  intro hall
  have hstart : roundStart 3 addBack mbaFunction 0 = some ⟨mbaFunction, .empty, {}⟩ := rfl
  have hstop : (roundStart 3 addBack mbaFunction 1).isNone = true := by decide +kernel
  have hquiet := ((hall Unit (fun _ => Nat) 3 addBack mbaFunction).last 0 _ hstart
    (Option.isNone_iff_eq_none.mp hstop)).1
  have hearly : Replaces (addBack.early 0)
      (⟨mbaFunction, .empty, {}⟩ : PipelineState fun _ : Unit => Nat) :=
    ⟨by decide +kernel, by decide +kernel⟩
  exact hquiet hearly

end Squanchy
