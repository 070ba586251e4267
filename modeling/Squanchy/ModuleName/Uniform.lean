import Squanchy.Instance.Shape
import Squanchy.ModuleName.Symbols

/-!
# The rewrites under another module name

The tool's own rewrites ask for symbols of the module in four places: the marks on the
helpers, the instance type, the instantiate function and the calls that receive the instance
again. The first two follow the option `-module-name`, the last two ask for `squanchy`. So
for another name the injection finds no instantiate function, and the reference pass looks
for the wrong prefix.
-/

namespace Squanchy

open Library

/-! ## Calls that pass the instance on -/

/-- A call of a function whose name starts so passes the caller's parameter 0. -/
def Instr.PassesInstance (M : Module) (start : String) (d : Nat) : Instr → Prop
  | .call c => c.callsPrefixed M start = true → c.args.head? = some (.arg d 0)
  | _ => True

def Function.PassesInstance (M : Module) (start : String) (f : Function) : Prop :=
  ∀ x ∈ f.instrs, x.2.PassesInstance M start x.1

def Module.PassesInstance (start F : String) (M : Module) : Prop :=
  ∀ f ∈ M.functions, f.name = F → f.PassesInstance M start

theorem Instr.replaceInstanceRef_eq_self {M : Module} {start : String} {d : Nat} {i : Instr} :
    i.replaceInstanceRef M start d = i ↔ i.PassesInstance M start d := by
  cases i with
  | call c =>
    by_cases hc : c.callsPrefixed M start = true
    · obtain ⟨kind, dst, functionType, callee, args, alwaysInline⟩ := c
      cases args with
      | nil =>
        have hcallee : callee ≠ .arg d 0 := by
          rintro rfl
          simp [CallBase.callsPrefixed, CallBase.getCalledFunction, CallBase.namedCallee] at hc
        simp [replaceInstanceRef, PassesInstance, hc, CallBase.setArgOperand0, hcallee.symm]
      | cons a args =>
        simp [replaceInstanceRef, PassesInstance, hc, CallBase.setArgOperand0, eq_comm]
    · simp [replaceInstanceRef, PassesInstance, hc]
  | _ => simp [replaceInstanceRef, PassesInstance]

theorem Function.replaceInstanceRefs_eq_self {M : Module} {start : String} {f : Function} :
    f.replaceInstanceRefs M start = f ↔ f.PassesInstance M start := by
  obtain ⟨name, params, retTy, attrs, body, linkage, isVarArg⟩ := f
  cases body with
  | none => simp [replaceInstanceRefs, PassesInstance, instrs]
  | some b =>
    have hb : b.replaceInstanceRefs M start = b ↔
        ∀ x ∈ b.code.instrs 0, x.2.PassesInstance M start x.1 := by
      simp only [← Instr.replaceInstanceRef_eq_self]
      rw [← Code.mapInstrs_eq_self]
      exact ⟨congrArg Body.code, fun h => Body.ext_code rfl h⟩
    simpa [replaceInstanceRefs, PassesInstance, instrs] using hb

section Refs

variable {start F : String} {M : Module} {f : Function}

/-- The reference pass changes nothing exactly when every call has its instance. -/
theorem replaceRefsTo_eq_self (hf : M.getFunction F = some f) (hp : f.params ≠ []) :
    replaceRefsTo start F M = .ok M ↔ M.PassesInstance start F := by
  have hfunctions : M.modify F (·.replaceInstanceRefs M start) = M ↔
      M.functions.map (fun g => if g.name = F then g.replaceInstanceRefs M start else g) =
        M.functions.map id := by
    rw [List.map_id]
    exact ⟨congrArg Module.functions, fun h => by rw [Module.modify, Module.mapFunctions, h]⟩
  rw [replaceRefsTo_eq hf hp, Except.ok.injEq, hfunctions, List.map_inj_left]
  apply forall₂_congr
  intro g _
  by_cases hg : g.name = F <;> simp [hg, Function.replaceInstanceRefs_eq_self]

end Refs

/-! ## What the marks keep -/

/-- The marks change attributes, of functions and of calls. -/
structure Remarked (f f' : Function) : Prop where
  name : f'.name = f.name
  params : f'.params = f.params
  defined : f'.body.isSome = f.body.isSome
  type : f'.functionType = f.functionType
  passes : ∀ M start, f'.PassesInstance M start ↔ f.PassesInstance M start

theorem Remarked.trans {f f' f'' : Function} (h : Remarked f f') (h' : Remarked f' f'') :
    Remarked f f'' where
  name := h'.name.trans h.name
  params := h'.params.trans h.params
  defined := h'.defined.trans h.defined
  type := h'.type.trans h.type
  passes M start := (h'.passes M start).trans (h.passes M start)

theorem remarked_addFnAttr (a : Attribute) (f : Function) : Remarked f (f.addFnAttr a) :=
  ⟨rfl, rfl, rfl, rfl, fun _ _ => Iff.rfl⟩

theorem remarked_markUses (g : String) (f : Function) : Remarked f (f.markUses g) := by
  obtain ⟨name, params, retTy, attrs, body, linkage, isVarArg⟩ := f
  refine ⟨rfl, rfl, by simp [Function.markUses], rfl, fun M start => ?_⟩
  cases body with
  | none => exact Iff.rfl
  | some b =>
    simp only [Function.PassesInstance, Function.instrs, Function.markUses, Option.map_some,
      Body.mapCalls, Body.withCode, Code.instrs_mapInstrs, List.forall_mem_map]
    apply forall₂_congr
    intro x _
    obtain ⟨d, s | c | t⟩ := x
    · exact Iff.rfl
    · dsimp only [CallBase.markUse]
      split <;> exact Iff.rfl
    · exact Iff.rfl

/-- The marks are a pass over the functions. -/
theorem setFunctionAlwayInline_eq (n : String) (M : Module) :
    ∃ t : Function → Function, (∀ f, Remarked f (t f)) ∧
      setFunctionAlwayInline n M = M.mapFunctions t := by
  have hid : M = M.mapFunctions id := by simp [Module.mapFunctions]
  have hrefl (f : Function) : Remarked f (id f) := ⟨rfl, rfl, rfl, rfl, fun _ _ => Iff.rfl⟩
  unfold setFunctionAlwayInline
  split
  · exact ⟨id, hrefl, hid⟩
  · split
    · exact ⟨id, hrefl, hid⟩
    · refine ⟨fun f => (if f.name = n then f.addFnAttr .alwaysInline else f).markUses n,
        fun f => ?_, by simp [Module.modify, Module.mapFunctions]⟩
      refine Remarked.trans ?_ (remarked_markUses n _)
      split <;> [exact remarked_addFnAttr _ f; exact hrefl f]

theorem setFunctionsAlwayInline_eq (N : String) (M : Module) :
    ∃ t : Function → Function, (∀ f, Remarked f (t f)) ∧
      setFunctionsAlwayInline N M = M.mapFunctions t := by
  unfold setFunctionsAlwayInline
  induction helperFunctions N generalizing M with
  | nil =>
    exact ⟨id, fun _ => ⟨rfl, rfl, rfl, rfl, fun _ _ => Iff.rfl⟩, by simp [Module.mapFunctions]⟩
  | cons n names ih =>
    obtain ⟨t, ht, hM⟩ := setFunctionAlwayInline_eq n M
    obtain ⟨t', ht', hM'⟩ := ih (setFunctionAlwayInline n M)
    refine ⟨t' ∘ t, fun f => (ht f).trans (ht' (t f)), ?_⟩
    rw [List.foldl_cons, hM', hM]
    simp [Module.mapFunctions]

theorem passesInstance_setFunctionsAlwayInline (N start F : String) (M : Module) :
    (setFunctionsAlwayInline N M).PassesInstance start F ↔ M.PassesInstance start F := by
  obtain ⟨t, ht, hM⟩ := setFunctionsAlwayInline_eq N M
  have htypes (f : Function) : f.PassesInstance (setFunctionsAlwayInline N M) start ↔
      f.PassesInstance M start := by
    simp only [Function.PassesInstance,
      ← Instr.replaceInstanceRef_eq_self, Instr.replaceInstanceRef_congr
        (functionType_setFunctionsAlwayInline N M)]
  simp only [Module.PassesInstance, htypes]
  simp only [hM, Module.mapFunctions, List.forall_mem_map, (ht _).name, (ht _).passes]

/-! ## The reference pass follows the name -/

section Rename

variable {N : String}

theorem CallBase.callsPrefixed_rename {M : Module} {c : CallBase}
    (hM : ∀ s ∈ M.symbols, Undone N s) (h : ∀ s ∈ c.symbols, Undone N s) :
    (c.rename (renameSymbol N "squanchy")).callsPrefixed
        (M.rename (renameSymbol N "squanchy")) "w2c_squanchy_" =
      c.callsPrefixed M ("w2c_" ++ N ++ "_") := by
  have hcallee : (c.rename (renameSymbol N "squanchy")).getCalledFunction
      (M.rename (renameSymbol N "squanchy")) =
        (c.getCalledFunction M).map (renameSymbol N "squanchy") :=
    getCalledFunction_rename (σ := renameSymbol "squanchy" N) hM h
  rw [callsPrefixed, callsPrefixed, hcallee, Option.any_map]
  congr 1
  cases hg : c.getCalledFunction M with
  | none => rfl
  | some g =>
    have hcallee := (getCalledFunction_eq_some.mp hg).1
    have hund : Undone N g := h g (by simp [symbols, hcallee, Operand.symbols])
    simp [hund.startsWith_renameSymbol]

theorem CallBase.rename_setArgOperand0 (ρ : String → String) (d : Nat) (c : CallBase) :
    (c.setArgOperand0 (.arg d 0)).rename ρ = (c.rename ρ).setArgOperand0 (.arg d 0) := by
  obtain ⟨kind, dst, functionType, callee, args, alwaysInline⟩ := c
  cases args <;> rfl

theorem CallBase.symbols_setArgOperand0 (d : Nat) (c : CallBase) :
    (c.setArgOperand0 (.arg d 0)).symbols ⊆ c.symbols := by
  obtain ⟨kind, dst, functionType, callee, args, alwaysInline⟩ := c
  cases args with
  | nil => simp [setArgOperand0, symbols, Operand.symbols]
  | cons a args =>
    refine append_subset_append (List.Subset.refl _) (append_subset_append (List.Subset.refl _) ?_)
    exact List.subset_append_right _ _

theorem Instr.rename_replaceInstanceRef {M : Module} (hM : ∀ s ∈ M.symbols, Undone N s) {d : Nat}
    {i : Instr} (h : ∀ s ∈ i.symbols, Undone N s) :
    (i.replaceInstanceRef M ("w2c_" ++ N ++ "_") d).rename (renameSymbol N "squanchy") =
      (i.rename (renameSymbol N "squanchy")).replaceInstanceRef
        (M.rename (renameSymbol N "squanchy")) "w2c_squanchy_" d := by
  cases i with
  | call c =>
    simp only [replaceInstanceRef, rename, c.callsPrefixed_rename hM h]
    split <;> [exact congrArg Instr.call (c.rename_setArgOperand0 _ d); rfl]
  | _ => rfl

theorem Instr.symbols_replaceInstanceRef (M : Module) (start : String) (d : Nat) (i : Instr) :
    (i.replaceInstanceRef M start d).symbols ⊆ i.symbols := by
  cases i with
  | call c =>
    dsimp only [replaceInstanceRef]
    split <;> [exact c.symbols_setArgOperand0 d; exact List.Subset.refl _]
  | _ => exact List.Subset.refl _

theorem Function.rename_replaceInstanceRefs {M : Module} (hM : ∀ s ∈ M.symbols, Undone N s)
    {f : Function} (h : ∀ s ∈ f.symbols, Undone N s) :
    (f.replaceInstanceRefs M ("w2c_" ++ N ++ "_")).rename (renameSymbol N "squanchy") =
      (f.rename (renameSymbol N "squanchy")).replaceInstanceRefs
        (M.rename (renameSymbol N "squanchy")) "w2c_squanchy_" := by
  obtain ⟨name, params, retTy, attrs, body, linkage, isVarArg⟩ := f
  cases body with
  | none => rfl
  | some b =>
    refine congrArg (Function.mk _ _ _ _ · linkage isVarArg) (congrArg some (Body.ext_code rfl ?_))
    have hb : Undoes (renameSymbol "squanchy" N) (renameSymbol N "squanchy") b.code.symbols := by
      intro s hs
      exact h s (by simp [symbols, hs])
    exact Code.rename_mapInstrs hb (fun d _ hi => Instr.rename_replaceInstanceRef hM (d := d) hi) 0

theorem Function.symbols_replaceInstanceRefs (M : Module) (start : String) (f : Function) :
    (f.replaceInstanceRefs M start).symbols ⊆ f.symbols :=
  Function.symbols_mapBody
    fun b => Code.symbols_mapInstrs (Instr.symbols_replaceInstanceRef M start) 0 b.code

end Rename

/-! ## Starts that no symbol tells apart -/

theorem Code.mapInstrs_congr {f f' : Nat → Instr → Instr} {d : Nat} {c : Code}
    (h : ∀ x ∈ c.instrs d, f x.1 x.2 = f' x.1 x.2) :
    c.mapInstrs f (fun _ o => o) d = c.mapInstrs f' (fun _ o => o) d := by
  induction c generalizing d with
  | stop => rfl
  | label l k ih => simp only [mapInstrs, ih h]
  | instr i k ih =>
    simp only [mapInstrs, h (d, i) List.mem_cons_self,
      ih fun x hx => h x (List.mem_cons_of_mem _ hx)]
  | inlined dst args b k ihb ihk =>
    simp only [mapInstrs, ihb fun x hx => h x (List.mem_append_left _ hx),
      ihk fun x hx => h x (List.mem_append_right _ hx)]

theorem Code.symbols_of_mem {d : Nat} {c : Code} {x : Nat × Instr} (hx : x ∈ c.instrs d) :
    x.2.symbols ⊆ c.symbols := by
  induction c generalizing d with
  | stop => simp [instrs] at hx
  | label l k ih => exact ih hx
  | instr i k ih =>
    rcases List.mem_cons.mp hx with rfl | hx
    · exact List.subset_append_left _ _
    · exact List.subset_append_of_subset_right _ (ih hx)
  | inlined dst args b k ihb ihk =>
    refine List.subset_append_of_subset_right _ ?_
    rcases List.mem_append.mp hx with hx | hx
    · exact List.subset_append_of_subset_left _ (ihb hx)
    · exact List.subset_append_of_subset_right _ (ihk hx)

theorem Module.symbols_of_mem {M : Module} {f : Function} {x : Nat × Instr}
    (hf : f ∈ M.functions) (hx : x ∈ f.instrs) : x.2.symbols ⊆ M.symbols := by
  intro s hs
  refine List.mem_append_left _ (List.mem_flatMap.mpr ⟨f, hf, ?_⟩)
  obtain ⟨name, params, retTy, attrs, body, linkage, isVarArg⟩ := f
  cases body with
  | none => simp [Function.instrs] at hx
  | some b =>
    have hsub := Code.symbols_of_mem (c := b.code) hx hs
    simp [Function.symbols, hsub]

/-- A call is found by the symbol of its callee. -/
theorem CallBase.callsPrefixed_congr {M : Module} {p q : String} {c : CallBase}
    (h : ∀ s ∈ c.symbols, startsWith s p = startsWith s q) :
    c.callsPrefixed M p = c.callsPrefixed M q := by
  unfold callsPrefixed
  cases hg : c.getCalledFunction M with
  | none => rfl
  | some g =>
    have hcallee := (getCalledFunction_eq_some.mp hg).1
    simp [h g (by simp [symbols, hcallee, Operand.symbols])]

theorem Module.replaceInstanceRefs_congr {p q : String} {M : Module}
    (h : ∀ s ∈ M.symbols, startsWith s p = startsWith s q) (F : String) :
    M.modify F (·.replaceInstanceRefs M p) = M.modify F (·.replaceInstanceRefs M q) := by
  have hmap : ∀ g ∈ M.functions, g.replaceInstanceRefs M p = g.replaceInstanceRefs M q := by
    intro g hg
    obtain ⟨name, params, retTy, attrs, body, linkage, isVarArg⟩ := g
    cases body with
    | none => rfl
    | some b =>
      refine congrArg (Function.mk _ _ _ _ · linkage isVarArg)
        (congrArg some (Body.ext_code rfl ?_))
      apply Code.mapInstrs_congr
      intro x hx
      have hsub := Module.symbols_of_mem hg (x := x) hx
      obtain ⟨d, s | c | t⟩ := x
      · rfl
      · simp only [Instr.replaceInstanceRef,
          CallBase.callsPrefixed_congr fun s hs => h s (hsub hs)]
      · rfl
  simp only [modify, mapFunctions, mk.injEq, and_true]
  apply List.map_congr_left
  intro g hg
  split <;> [exact hmap g hg; rfl]

/-- Where no symbol starts so, there is no call to look at. -/
theorem Module.passesInstance_of_no_symbol {start : String} {M : Module}
    (h : ∀ s ∈ M.symbols, startsWith s start = false) (F : String) :
    M.PassesInstance start F := by
  intro f hf _ x hx
  have hsub := Module.symbols_of_mem hf hx
  obtain ⟨d, s | c | t⟩ := x
  · trivial
  · intro hc
    obtain ⟨_, hprefix⟩ := Bool.and_eq_true_iff.mp hc
    obtain ⟨g, hg, hstart⟩ := (Option.any_eq_true _ _).mp hprefix
    have hcallee := (CallBase.getCalledFunction_eq_some.mp hg).1
    rw [h g (hsub (by simp [Instr.symbols, CallBase.symbols, hcallee, Operand.symbols]))] at hstart
    cases hstart
  · trivial

/-! ## Both runs -/

/-- The rewrites of `deobfuscateFunction` that are the tool's own. -/
def ownRewrites (o : Options) (M : Module) (F : String) : Except Abort Module := do
  let M := setFunctionsAlwayInline o.ModuleName M
  let M ← whenSet o.InjectInitializer (injectInitializer o.ModuleName · F) M
  whenSet o.ReplaceInstanceRefs (replaceInstanceRefs F) M

/-- The rewrites yield what they yield under the name `squanchy`, renamed back. -/
def Uniform (o : Options) (M : Module) (F : String) : Prop :=
  ownRewrites o M F =
    (ownRewrites { o with ModuleName := "squanchy" }
      (M.rename (renameSymbol o.ModuleName "squanchy"))
      (renameSymbol o.ModuleName "squanchy" F)).map
      (·.rename (renameSymbol "squanchy" o.ModuleName))

/-- The call that the injection inserts after its two allocations. -/
def Body.insertedCall (b : Body) : Option CallBase :=
  match b.code with
  | .instr _ (.instr _ (.instr (.call c) _)) => some c
  | _ => none

/-- The inserted call targets the instantiate function of the module, marked for inlining. -/
def InstantiatesMarked (N : String) (M : Module) (F : String) : Prop :=
  ∃ M' b c g, injectInitializer N (setFunctionsAlwayInline N M) F = .ok M' ∧
    M'.bodyOf F = some b ∧ b.insertedCall = some c ∧ c.getCalledFunction M' = some g.name ∧
    g.name = "wasm2c_" ++ N ++ "_instantiate" ∧ M'.getFunction g.name = some g ∧
    g.hasFnAttribute .alwaysInline = true

/-- The module that `wasm2c -n N` makes, with the type of its environment, and a function of
it with a parameter for the instance. None of its symbols is derived from `squanchy` instead. -/
structure ProducedBy (N : String) (M : Module) (F : String) : Prop where
  undone : ∀ s ∈ M.symbols, Undone N s
  instanceType : "struct.w2c_" ++ N ∈ M.structTypes
  env : ∃ STEnv, envType M = .ok STEnv
  instantiate : (M.getFunction ("wasm2c_" ++ N ++ "_instantiate")).isSome = true
  target : ∃ f b, M.getFunction F = some f ∧ f.body = some b ∧ f.params ≠ []

section Marked

variable {N F : String} {M : Module}

theorem ProducedBy.undone_target (h : ProducedBy N M F) : Undone N F := by
  obtain ⟨f, _, hf, _⟩ := h.target
  refine h.undone F (List.mem_append_left _ (List.mem_flatMap.mpr ⟨f, ?_, ?_⟩))
  · exact List.mem_of_find?_eq_some hf
  · simp [Function.symbols, Module.getFunction_name hf]

/-- The marked module is one of `wasm2c -n N` again. -/
theorem ProducedBy.marked (h : ProducedBy N M F) :
    ProducedBy N (setFunctionsAlwayInline N M) F where
  undone s hs := h.undone s <|
    (marks_rename (σ := renameSymbol "squanchy" N) (ρ := renameSymbol N "squanchy") h.undone
      fun _ => undone_helper).1 hs
  instanceType := by
    obtain ⟨t, _, hM⟩ := setFunctionsAlwayInline_eq N M
    simpa [hM, Module.mapFunctions] using h.instanceType
  env := by
    obtain ⟨t, _, hM⟩ := setFunctionsAlwayInline_eq N M
    obtain ⟨STEnv, hEnv⟩ := h.env
    exact ⟨STEnv, by rw [← hEnv, hM]; rfl⟩
  instantiate := by
    obtain ⟨t, ht, hM⟩ := setFunctionsAlwayInline_eq N M
    rw [hM, Module.getFunction_mapFunctions fun f => (ht f).name, Option.isSome_map]
    exact h.instantiate
  target := by
    obtain ⟨t, ht, hM⟩ := setFunctionsAlwayInline_eq N M
    obtain ⟨f, b, hf, hb, hp⟩ := h.target
    have hdefined : (t f).body.isSome = true := by simp [(ht f).defined, hb]
    obtain ⟨b', hb'⟩ := Option.isSome_iff_exists.mp hdefined
    refine ⟨t f, b', ?_, hb', by rwa [(ht f).params]⟩
    rw [hM, Module.getFunction_mapFunctions fun f => (ht f).name, hf]
    rfl

theorem ProducedBy.rename_marked (h : ProducedBy N M F) :
    setFunctionsAlwayInline "squanchy" (M.rename (renameSymbol N "squanchy")) =
      (setFunctionsAlwayInline N M).rename (renameSymbol N "squanchy") := by
  unfold setFunctionsAlwayInline
  rw [(marks_rename (σ := renameSymbol "squanchy" N) h.undone fun _ => undone_helper).2,
    helperFunctions_rename]

/-- Renaming, rewriting the references and renaming back rewrites those of the name. -/
theorem ProducedBy.rename_replaceInstanceRefs (h : ProducedBy N M F) :
    (replaceInstanceRefs (renameSymbol N "squanchy" F)
      (M.rename (renameSymbol N "squanchy"))).map (·.rename (renameSymbol "squanchy" N)) =
      replaceRefsTo ("w2c_" ++ N ++ "_") F M := by
  obtain ⟨f, _, hf, _, hp⟩ := h.target
  have hF := h.undone_target
  have hund : Undoes (renameSymbol "squanchy" N) (renameSymbol N "squanchy") M.symbols := h.undone
  have hf' := (Module.getFunction_rename hund hF).trans (congrArg _ hf)
  have hback : Undoes (renameSymbol "squanchy" N) (renameSymbol N "squanchy")
      (M.modify F (·.replaceInstanceRefs M ("w2c_" ++ N ++ "_"))).symbols :=
    hund.mono (M.symbols_modify F (Function.symbols_replaceInstanceRefs M _))
  rw [replaceInstanceRefs, replaceRefsTo_eq hf' (by simpa [Function.rename] using hp),
    replaceRefsTo_eq hf hp, Except.map, ← Module.rename_modify hund hF fun g hg =>
      Function.rename_replaceInstanceRefs h.undone (Module.undoes_function hund hg),
    Module.rename_rename hback]

/-- Where the injection finds no instantiate function, or would find one. -/
theorem injectInitializer_error {N F : String} {M : Module}
    (h : injectInitializer N M F = .error (.undefinedBehaviour "CreateCall")) :
    M.getFunction "wasm2c_squanchy_instantiate" = none := by
  have henv : envType M ≠ .error (.undefinedBehaviour "CreateCall") := by
    unfold envType
    split
    · simp
    · split
      · simp
      · split
        · dsimp only
          split <;> simp
        · simp
  have hlast : ∃ f, M.getFunction F = some f ∧ (∃ b, f.body = some b) ∧ f.params ≠ [] ∧
      "struct.w2c_" ++ N ∈ M.structTypes ∧ (∃ STEnv, envType M = .ok STEnv) ∧
      M.getFunction "wasm2c_squanchy_instantiate" = none := by
    simpa [injectInitializer, henv] using h
  obtain ⟨_, _, _, _, _, _, hnone⟩ := hlast
  exact hnone

/-- Under another name the injection has no function to call. -/
theorem ProducedBy.injectInitializer_eq (h : ProducedBy N M F) (hN : N ≠ "squanchy") :
    injectInitializer N M F = .error (.undefinedBehaviour "CreateCall") := by
  obtain ⟨f, b, hf, hb, hp⟩ := h.target
  obtain ⟨STEnv, hEnv⟩ := h.env
  have hnone : M.getFunction "wasm2c_squanchy_instantiate" = none := by
    by_contra hsome
    obtain ⟨g, hg⟩ := Option.ne_none_iff_exists'.mp hsome
    refine (h.undone "wasm2c_squanchy_instantiate" ?_).ne_instantiate hN rfl
    refine List.mem_append_left _ (List.mem_flatMap.mpr ⟨g, List.mem_of_find?_eq_some hg, ?_⟩)
    simp [Function.symbols, Module.getFunction_name hg]
  simp only [injectInitializer, bind_eq_error, orThrow_eq_ok, orThrow_eq_error, require_eq_ok]
  exact .inr ⟨f, hf, .inr ⟨b, hb, .inr ⟨(), hp, .inr ⟨(), h.instanceType, .inr ⟨STEnv, hEnv,
    .inl ⟨hnone, trivial⟩⟩⟩⟩⟩⟩

/-- With the injection, the run under another name stops and the run under `squanchy` does
not stop there. -/
theorem ProducedBy.not_uniform {o : Options} (h : ProducedBy o.ModuleName M F)
    (hN : o.ModuleName ≠ "squanchy") (ho : o.InjectInitializer = true) : ¬Uniform o M F := by
  intro hu
  have hleft : ownRewrites o M F = .error (.undefinedBehaviour "CreateCall") := by
    simp only [ownRewrites, whenSet, ho, if_true, bind_eq_error]
    exact .inl (h.marked.injectInitializer_eq hN)
  rw [Uniform, hleft] at hu
  have hright : ownRewrites { o with ModuleName := "squanchy" }
      (M.rename (renameSymbol o.ModuleName "squanchy"))
      (renameSymbol o.ModuleName "squanchy" F) = .error (.undefinedBehaviour "CreateCall") := by
    revert hu
    cases ownRewrites { o with ModuleName := "squanchy" }
      (M.rename (renameSymbol o.ModuleName "squanchy"))
      (renameSymbol o.ModuleName "squanchy" F) <;> simp [Except.map, eq_comm]
  simp only [ownRewrites, whenSet, ho, if_true, bind_eq_error] at hright
  rcases hright with hinject | ⟨M', _, hrefs⟩
  · have hnone := injectInitializer_error hinject
    rw [h.rename_marked] at hnone
    have hund := undone_wasm2c o.ModuleName "instantiate"
    have hname : "wasm2c_" ++ o.ModuleName ++ "_" ++ "instantiate" =
        "wasm2c_" ++ o.ModuleName ++ "_instantiate" := by
      rw [String.append_assoc]
      rfl
    have hren : renameSymbol o.ModuleName "squanchy"
        ("wasm2c_" ++ o.ModuleName ++ "_" ++ "instantiate") = "wasm2c_squanchy_instantiate" :=
      renameSymbol_wasm2c o.ModuleName "squanchy" "instantiate"
    have hfound := Module.getFunction_rename (σ := renameSymbol "squanchy" o.ModuleName)
      h.marked.undone hund
    rw [hren, hnone, hname] at hfound
    have hinst := h.marked.instantiate
    rw [Option.map_eq_none_iff.mp hfound.symm] at hinst
    exact absurd hinst (by simp)
  · split at hrefs
    · simp [replaceInstanceRefs, replaceRefsTo] at hrefs
    · cases hrefs

/-- Under the name `squanchy` the injection calls the function that was marked. -/
theorem ProducedBy.instantiatesMarked (h : ProducedBy "squanchy" M F) :
    InstantiatesMarked "squanchy" M F := by
  obtain ⟨f, b, hf, hb, hp⟩ := h.marked.target
  obtain ⟨STEnv, hEnv⟩ := h.marked.env
  obtain ⟨g, hg⟩ := Option.isSome_iff_exists.mp h.marked.instantiate
  have hname : "wasm2c_" ++ "squanchy" ++ "_instantiate" = "wasm2c_squanchy_instantiate" := rfl
  rw [hname] at hg
  have hgname : g.name = "wasm2c_squanchy_instantiate" := Module.getFunction_name hg
  let M₁ := setFunctionsAlwayInline "squanchy" M
  let b' := b.withInitializer STEnv (.struct ("struct.w2c_" ++ "squanchy")) g.name g.functionType
  have hinject : injectInitializer "squanchy" M₁ F = .ok (M₁.setBody F b') := by
    simp only [injectInitializer, bind_eq_ok, orThrow_eq_ok, require_eq_ok, pure_eq_ok]
    exact ⟨f, hf, b, hb, (), hp, (), h.marked.instanceType, STEnv, hEnv, g, hg, rfl⟩
  have hattrs : (M₁.setBody F b').attrsOf g.name = some (g.attrs) := by
    rw [attrsOf_setBody, Module.attrsOf, hgname, hg]
    rfl
  obtain ⟨g', hg', hattrs'⟩ := Option.map_eq_some_iff.mp hattrs
  have hgname' : g'.name = g.name := Module.getFunction_name hg'
  have hmarked : .alwaysInline ∈ g.attrs := by
    have hmark := attrsOf_setFunctionsAlwayInline "squanchy" M "wasm2c_squanchy_instantiate"
    rw [Module.attrsOf, hg, if_pos (by simp [helperFunctions])] at hmark
    obtain ⟨a, _, ha⟩ := Option.map_eq_some_iff.mp hmark.symm
    have ha : insert .alwaysInline a = g.attrs := ha
    rw [← ha]
    exact Finset.mem_insert_self ..
  have htype : (M₁.setBody F b').functionType g'.name = some g.functionType := by
    rw [Module.functionType_setBody, hgname', hgname, Module.functionType, hg]
    rfl
  refine ⟨_, b', _, g', hinject, Module.bodyOf_setBody_self hf, rfl,
    CallBase.getCalledFunction_eq_some.mpr ⟨congrArg Operand.func hgname'.symm, htype⟩,
    hgname'.trans hgname, hgname' ▸ hg', ?_⟩
  simpa [Function.hasFnAttribute, hattrs'] using hmarked

/-- Without the injection, the runs agree as far as the reference pass does. -/
theorem ProducedBy.uniform_iff_refs {o : Options} (h : ProducedBy o.ModuleName M F)
    (ho : o.InjectInitializer = false) : Uniform o M F ↔
      (o.ReplaceInstanceRefs = true →
        replaceRefsTo "w2c_squanchy_" F (setFunctionsAlwayInline o.ModuleName M) =
          replaceRefsTo ("w2c_" ++ o.ModuleName ++ "_") F
            (setFunctionsAlwayInline o.ModuleName M)) := by
  have hund : Undoes (renameSymbol "squanchy" o.ModuleName) (renameSymbol o.ModuleName "squanchy")
      (setFunctionsAlwayInline o.ModuleName M).symbols := h.marked.undone
  unfold Uniform ownRewrites whenSet
  cases o.ReplaceInstanceRefs with
  | false =>
    simp [ho, bind, Except.bind, h.rename_marked, Except.map, Module.rename_rename hund]
  | true =>
    simp only [ho, Bool.false_eq_true, if_false, if_true, bind, Except.bind, h.rename_marked,
      h.marked.rename_replaceInstanceRefs, true_imp_iff]
    rfl

/-- Both prefixes lead to one result if the name makes one out of the other, or if there is
nothing to replace. -/
theorem ProducedBy.replaceRefsTo_eq_iff (h : ProducedBy N M F) (hN : N ≠ "squanchy") :
    replaceRefsTo "w2c_squanchy_" F (setFunctionsAlwayInline N M) =
      replaceRefsTo ("w2c_" ++ N ++ "_") F (setFunctionsAlwayInline N M) ↔
    startsWith N "squanchy_" = true ∨ M.PassesInstance ("w2c_" ++ N ++ "_") F := by
  obtain ⟨f, _, hf, _, hp⟩ := h.marked.target
  have hund := h.marked.undone
  cases hs : startsWith N "squanchy_" with
  | true =>
    obtain ⟨r, rfl⟩ := startsWith_iff.mp hs
    refine iff_of_true ?_ (.inl rfl)
    rw [replaceRefsTo_eq hf hp, replaceRefsTo_eq hf hp,
      Module.replaceInstanceRefs_congr fun s hmem => ?_]
    rw [Bool.eq_iff_iff]
    refine ⟨(hund s hmem).startsWith_of_squanchy, fun hstart => ?_⟩
    obtain ⟨t, rfl⟩ := startsWith_iff.mp hstart
    exact startsWith_iff.mpr ⟨r ++ "_" ++ t, String.toList_inj.mp (by simp)⟩
  | false =>
    have hnone : ∀ s ∈ (setFunctionsAlwayInline N M).symbols,
        startsWith s "w2c_squanchy_" = false := by
      intro s hmem
      by_contra hstart
      rw [Bool.not_eq_false] at hstart
      rcases squanchy_or_startsWith hstart ((hund s hmem).startsWith_of_squanchy hstart) with
        h | h
      · exact hN h
      · simp [hs] at h
    rw [(replaceRefsTo_eq_self hf hp).mpr (Module.passesInstance_of_no_symbol hnone F), eq_comm,
      replaceRefsTo_eq_self hf hp, passesInstance_setFunctionsAlwayInline]
    simp

end Marked

/-- The tool is uniform in the module name, and calls the function it marked, exactly under
the name `squanchy`, or without the injection where the reference pass has nothing to do or
finds the functions of the module by luck. -/
theorem uniform_iff {o : Options} {M : Module} {F : String} (h : ProducedBy o.ModuleName M F) :
    (Uniform o M F ∧ (o.InjectInitializer = true → InstantiatesMarked o.ModuleName M F)) ↔
      o.ModuleName = "squanchy" ∨ o.InjectInitializer = false ∧
        (o.ReplaceInstanceRefs = false ∨ startsWith o.ModuleName "squanchy_" = true ∨
          M.PassesInstance ("w2c_" ++ o.ModuleName ++ "_") F) := by
  by_cases hN : o.ModuleName = "squanchy"
  · have hself : ({ o with ModuleName := "squanchy" } : Options) = o := by rw [← hN]
    have hid (M : Module) : M.rename (renameSymbol "squanchy" "squanchy") = M :=
      Module.rename_fixes fun s _ => renameSymbol_self "squanchy" s
    refine iff_of_true ⟨?_, fun _ => ?_⟩ (.inl hN)
    · rw [Uniform, hself, hN, hid, renameSymbol_self]
      cases ownRewrites o M F <;> simp [Except.map, hid]
    · rw [hN] at h ⊢
      exact h.instantiatesMarked
  · cases ho : o.InjectInitializer with
    | true => simp [hN, h.not_uniform hN ho]
    | false =>
      rw [h.uniform_iff_refs ho]
      simp only [hN, false_or, Bool.false_eq_true, false_imp_iff, and_true, true_and]
      cases o.ReplaceInstanceRefs with
      | false => simp
      | true => simpa using h.replaceRefsTo_eq_iff hN

/-! ## The sample module under another name -/

/-- The rewrites depend on the module name in no other way. -/
def ModuleNameUniformity : Prop :=
  ∀ o M F, ProducedBy o.ModuleName M F →
    Uniform o M F ∧ (o.InjectInitializer = true → InstantiatesMarked o.ModuleName M F)

/-- The recursive module, as `wasm2c -n wasm` makes it. -/
def wasmModule : Module := recursiveModule.rename (renameSymbol "squanchy" "wasm")

theorem producedBy_wasmModule : ProducedBy "wasm" wasmModule "w2c_wasm_f0" where
  undone := by decide +kernel
  instanceType := by decide +kernel
  env := ⟨.struct "struct.w2c_env", by decide +kernel⟩
  instantiate := by decide +kernel
  target := by
    obtain ⟨f, hf⟩ := Option.isSome_iff_exists.mp
      (show (wasmModule.getFunction "w2c_wasm_f0").isSome = true by decide +kernel)
    have hall : ∀ f ∈ wasmModule.functions, f.body.isSome = true ∧ f.params ≠ [] := by
      decide +kernel
    obtain ⟨hb, hp⟩ := hall f (List.mem_of_find?_eq_some hf)
    obtain ⟨b, hb⟩ := Option.isSome_iff_exists.mp hb
    exact ⟨f, b, hf, hb, hp⟩

/-- With `-module-name=wasm` the injection finds no function to call. -/
theorem wasm_injection_fails : ¬ ModuleNameUniformity := by
  intro hall
  have huniform := (hall { ModuleName := "wasm" } wasmModule "w2c_wasm_f0"
    producedBy_wasmModule).1
  exact producedBy_wasmModule.not_uniform (by decide) rfl huniform

/-- The reference pass, on its own, leaves the calls of the renamed module alone. -/
theorem uniform_iff_wasmModule :
    (Uniform { ModuleName := "wasm", InjectInitializer := false, ReplaceInstanceRefs := true }
        wasmModule "w2c_wasm_f0" ∧
      (false = true → InstantiatesMarked "wasm" wasmModule "w2c_wasm_f0")) ↔
      "wasm" = "squanchy" ∨ false = false ∧ (true = false ∨
        startsWith "wasm" "squanchy_" = true ∨
          wasmModule.PassesInstance ("w2c_" ++ "wasm" ++ "_") "w2c_wasm_f0") :=
  uniform_iff producedBy_wasmModule

end Squanchy
