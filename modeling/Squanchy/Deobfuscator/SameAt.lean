import Squanchy.Deobfuscator.Linking
import Squanchy.Inline.Alike

/-!
# What the processing of a function reads

Once the runtime is linked and the helpers are marked, the steps that follow read the
declarations of the module, the function itself, and the code of the functions that carry
`AlwaysInline`. Where these are the same in two modules, up to the marks of calls, the steps
succeed or fail alike and leave the same function behind. The optimizers are asked to look at no
more than that.
-/

namespace Squanchy

open Library

/-! ## Declarations -/

/-- The function without its attributes and its code. -/
def Function.declaration (f : Function) : Function := { f with attrs := ∅, body := none }

/-- The symbols of the module with their types and linkage, without those that stand apart. -/
def Module.declarations (M : Module) : Module :=
  { M.mapFunctions Function.declaration with added := [] }

namespace Module

theorem declarations_mapFunctions {M : Module} {f : Function → Function}
    (hf : ∀ g, (f g).declaration = g.declaration) :
    (M.mapFunctions f).declarations = M.declarations := by
  simp [declarations, mapFunctions, Function.comp_def, hf]

theorem declarations_modify {M : Module} {name : String} {f : Function → Function}
    (hf : ∀ g, (f g).declaration = g.declaration) :
    (M.modify name f).declarations = M.declarations :=
  declarations_mapFunctions fun g => by split <;> simp [hf]

theorem getFunction_declarations (M : Module) (n : String) :
    M.declarations.getFunction n = (M.getFunction n).map Function.declaration :=
  getFunction_mapFunctions (f := Function.declaration) (fun _ => rfl) n

@[simp] theorem functionType_declarations (M : Module) :
    M.declarations.functionType = M.functionType := by
  funext n
  simp only [functionType, getFunction_declarations, Option.map_map]
  rfl

end Module

theorem declarations_setFunctionsAlwayInline (N : String) (M : Module) :
    (setFunctionsAlwayInline N M).declarations = M.declarations := by
  unfold setFunctionsAlwayInline
  induction helperFunctions N generalizing M with
  | nil => rfl
  | cons name names ih =>
    rw [List.foldl_cons, ih]
    unfold setFunctionAlwayInline
    split
    · rfl
    · split
      · rfl
      · exact (Module.declarations_mapFunctions (f := (·.markUses name)) fun _ => rfl).trans
          (Module.declarations_modify (f := (·.addFnAttr .alwaysInline)) fun _ => rfl)

theorem declarations_setNoInline (F : String) (M : Module) :
    (setNoInline F M).declarations = M.declarations := by
  refine (Module.declarations_mapFunctions (f := (·.dropInlining)) fun g => ?_).trans
    (Module.declarations_modify (f := (·.addFnAttr .noInline)) fun _ => rfl)
  unfold Function.dropInlining
  split <;> rfl

/-- The linker goes by declarations. -/
theorem declarations_linkRuntime (M R : Module) :
    (linkRuntime M R).declarations = (linkRuntime M.declarations R).declarations := by
  have hplace (f : Function) : (R.overrideFunction f.declaration).declaration =
      (R.overrideFunction f).declaration := by
    have hname : f.declaration.name = f.name := rfl
    unfold Module.overrideFunction
    rw [hname]
    split
    · cases R.getFunction f.name <;> rfl
    · rfl
  have hfunctions : (linkRuntime M R).declarations.functions =
      (linkRuntime M.declarations R).declarations.functions := by
    simp only [Module.declarations, Module.mapFunctions, functions_linkRuntime, linkTable,
      List.map_append, List.map_map, List.find?_map, Option.isNone_map]
    congr 1
    exact List.map_congr_left fun f _ => (hplace f).symm
  exact Module.mk.injEq .. |>.mpr ⟨hfunctions, rfl, rfl, rfl, rfl⟩

/-! ## One function in two modules -/

/-- The same function but for its calls' marks. -/
structure Function.Same (f f' : Function) : Prop where
  declaration : f.declaration = f'.declaration
  attrs : f.attrs = f'.attrs
  code : f.body.map (·.code.unmark) = f'.body.map (·.code.unmark)

/-- Both modules have the declarations `D`, and `F` is the same in both. -/
structure SameAt (D : Module) (F : String) (M M' : Module) : Prop where
  left : M.declarations = D
  right : M'.declarations = D
  attrs : M.attrsOf F = M'.attrsOf F
  code : (M.bodyOf F).map (·.code.unmark) = (M'.bodyOf F).map (·.code.unmark)

/-- The optimizer looks at the declarations of the module, and at one function. -/
def FunctionPass.Local (P : FunctionPass) : Prop :=
  ∀ (M M' : Module) (f f' : Function), M.declarations = M'.declarations → f.Same f' →
    (P M f).map (·.body.code.unmark) = (P M' f').map (·.body.code.unmark)

theorem FunctionPass.skip_local : FunctionPass.skip.Local := by
  intro _ _ _ _ _ hf
  simpa [skip, Function.comp_def] using hf.code

structure Optimizers.Local (P : Optimizers) : Prop where
  optimizeFunction : P.optimizeFunction.Local
  optimizeFunctionWithCustomPipeline : ∀ b, (P.optimizeFunctionWithCustomPipeline b).Local

theorem Optimizers.off_local : Optimizers.off.Local where
  optimizeFunction := FunctionPass.skip_local
  optimizeFunctionWithCustomPipeline _ := FunctionPass.skip_local

/-! ## Rewrites look through marks -/

namespace Code

variable {p : Instr → Bool}

theorem instrs_unmark (d : Nat) (c : Code) :
    c.unmark.instrs d = (c.instrs d).map fun x => (x.1, x.2.unmark) := by
  induction c generalizing d with
  | stop => rfl
  | label l k ih => exact ih d
  | instr i k ih => simp only [unmark, instrs, List.map_cons, ih]
  | inlined dst args b k ihb ihk => simp only [unmark, instrs, List.map_append, ihb, ihk]

theorem unmark_eraseInstrs (hp : ∀ i : Instr, p i.unmark = p i) (c : Code) :
    (c.eraseInstrs p).unmark = c.unmark.eraseInstrs p := by
  induction c with
  | stop => rfl
  | label l k ih => simp only [eraseInstrs, unmark, ih]
  | instr i k ih =>
    simp only [eraseInstrs, unmark, hp]
    split
    · exact ih
    · simp only [unmark, ih]
  | inlined dst args b k ihb ihk => simp only [eraseInstrs, unmark, ihb, ihk]

theorem unmark_mapInstrs {f : Nat → Instr → Instr} {g : Nat → Operand → Operand}
    (hf : ∀ d i, (f d (Instr.unmark i)).unmark = (f d i).unmark) (d : Nat) (c : Code) :
    (c.unmark.mapInstrs f g d).unmark = (c.mapInstrs f g d).unmark := by
  induction c generalizing d with
  | stop => rfl
  | label l k ih => simp only [mapInstrs, unmark, ih]
  | instr i k ih => simp only [mapInstrs, unmark, hf, ih]
  | inlined dst args b k ihb ihk => simp only [mapInstrs, unmark, ihb, ihk]

end Code

theorem Instr.unmark_replaceInstanceRef (M : Module) (start : String) (d : Nat) (i : Instr) :
    (i.unmark.replaceInstanceRef M start d).unmark = (i.replaceInstanceRef M start d).unmark := by
  cases i with
  | call c =>
    have hcalls : ({ c with alwaysInline := false } : CallBase).callsPrefixed M start =
        c.callsPrefixed M start := rfl
    simp only [unmark, replaceInstanceRef, hcalls]
    split
    · unfold CallBase.setArgOperand0
      cases c.args <;> rfl
    · rfl
  | _ => rfl

/-! ## The steps of one function -/

/-- Bodies that were rewritten alike, by steps that look through marks. -/
theorem Function.Same.map_body {f f' : Function} (h : f.Same f') {t : Body → Body} (u : Code → Code)
    (ht : ∀ b, (t b).code.unmark = u b.code.unmark) :
    (f.body.map t).map (·.code.unmark) = (f'.body.map t).map (·.code.unmark) := by
  have hmap (x : Option Body) : (x.map t).map (·.code.unmark) =
      (x.map (·.code.unmark)).map u := by
    simp [Option.map_map, Function.comp_def, ht]
  rw [hmap, hmap, h.code]

namespace SameAt

variable {D M M' : Module} {F : String}

theorem declarations (h : SameAt D F M M') : M.declarations = M'.declarations :=
  h.left.trans h.right.symm

theorem functionType (h : SameAt D F M M') : M.functionType = M'.functionType := by
  rw [← M.functionType_declarations, h.declarations, M'.functionType_declarations]

theorem getFunction_declaration (h : SameAt D F M M') (n : String) :
    (M.getFunction n).map Function.declaration = (M'.getFunction n).map Function.declaration := by
  rw [← Module.getFunction_declarations, h.declarations, Module.getFunction_declarations]

theorem getFunction (h : SameAt D F M M') :
    (M.getFunction F = none ∧ M'.getFunction F = none) ∨
      ∃ f f', M.getFunction F = some f ∧ M'.getFunction F = some f' ∧ f.Same f' := by
  have hdecl := h.getFunction_declaration F
  have hattrs := h.attrs
  have hcode := h.code
  unfold Module.attrsOf at hattrs
  unfold Module.bodyOf at hcode
  cases hf : M.getFunction F <;> cases hf' : M'.getFunction F <;>
    simp only [hf, hf', Option.map_some, Option.map_none, reduceCtorEq, Option.some.injEq] at hdecl
  · exact .inl ⟨rfl, rfl⟩
  · exact .inr ⟨_, _, rfl, rfl, hdecl, by simpa [hf, hf'] using hattrs,
      by simpa [hf, hf'] using hcode⟩

/-- A program that starts by looking up `F`. -/
theorem parallel_getFunction (h : SameAt D F M M') (e : Abort) :
    Parallel (fun f f' => M.getFunction F = some f ∧ M'.getFunction F = some f' ∧ f.Same f')
      (orThrow e (M.getFunction F)) (orThrow e (M'.getFunction F)) := by
  rcases h.getFunction with ⟨hf, hf'⟩ | ⟨f, f', hf, hf', hsame⟩
  · rw [hf, hf']
    exact .error e
  · rw [hf, hf']
    exact .ok ⟨rfl, rfl, hsame⟩

/-- The body of `F` is replaced on both sides. -/
theorem withBody (h : SameAt D F M M') {t u : Function → Option Body}
    (ht : ∀ f f', f.Same f' → (t f).map (·.code.unmark) = (u f').map (·.code.unmark)) :
    SameAt D F (M.modify F fun f => { f with body := t f })
      (M'.modify F fun f => { f with body := u f }) := by
  refine ⟨?_, ?_, ?_, ?_⟩
  · exact (Module.declarations_modify (f := fun f => { f with body := t f })
      fun _ => rfl).trans h.left
  · exact (Module.declarations_modify (f := fun f => { f with body := u f })
      fun _ => rfl).trans h.right
  · rw [attrsOf_modify_of_eq M F (fun f => { f with body := t f }) (fun _ => rfl) fun _ => rfl,
      attrsOf_modify_of_eq M' F (fun f => { f with body := u f }) (fun _ => rfl) fun _ => rfl,
      h.attrs]
  · rw [Module.bodyOf, Module.bodyOf,
      Module.getFunction_modify M F (fun f => { f with body := t f }) (fun _ => rfl),
      Module.getFunction_modify M' F (fun f => { f with body := u f }) (fun _ => rfl),
      if_pos rfl, if_pos rfl]
    rcases h.getFunction with ⟨hf, hf'⟩ | ⟨f, f', hf, hf', hsame⟩
    · rw [hf, hf']
      rfl
    · rw [hf, hf']
      exact ht f f' hsame

theorem setBody (h : SameAt D F M M') {b b' : Body} (hb : b.code.unmark = b'.code.unmark) :
    SameAt D F (M.setBody F b) (M'.setBody F b') :=
  h.withBody (t := fun _ => some b) (u := fun _ => some b') fun _ _ _ => congrArg some hb

/-- What the optimizers add stands apart. -/
theorem addSymbols (h : SameAt D F M M') (new new' : List NewSymbol) :
    SameAt D F (M.addSymbols new) (M'.addSymbols new') :=
  ⟨h.left, h.right, h.attrs, h.code⟩

theorem removeCallASMSideEffects (h : SameAt D F M M') :
    SameAt D F (Squanchy.removeCallASMSideEffects F M)
      (Squanchy.removeCallASMSideEffects F M') :=
  h.withBody fun _ _ hf => hf.map_body (·.eraseInstrs Instr.isAsmCall) fun b =>
    Code.unmark_eraseInstrs (fun i => by cases i <;> rfl) b.code

theorem setNoInline (h : SameAt D F M M') :
    SameAt D F (Squanchy.setNoInline F M) (Squanchy.setNoInline F M') := by
  refine ⟨?_, ?_, ?_, ?_⟩
  · rw [declarations_setNoInline, h.left]
  · rw [declarations_setNoInline, h.right]
  · rw [attrsOf_setNoInline, attrsOf_setNoInline, h.attrs]
  · rw [← SameCode.setNoInline [] F M F List.not_mem_nil, h.code,
      SameCode.setNoInline [] F M' F List.not_mem_nil]

theorem runOn {P : FunctionPass} (hP : P.Local) (h : SameAt D F M M') :
    Parallel (SameAt D F) (runOn P F M) (runOn P F M') := by
  unfold Squanchy.runOn
  refine (h.parallel_getFunction _).bind fun f f' ⟨_, _, hf⟩ => ?_
  refine (parallel_orThrow_map (hP M M' f f' h.declarations hf)).bind fun b b' hb => ?_
  exact parallel_pure ((h.setBody hb).addSymbols b.added b'.added)

theorem replaceInstanceRefs (h : SameAt D F M M') :
    Parallel (SameAt D F) (replaceInstanceRefs F M) (replaceInstanceRefs F M') := by
  unfold Squanchy.replaceInstanceRefs replaceRefsTo
  refine (h.parallel_getFunction _).bind fun f f' ⟨_, _, hf⟩ => ?_
  obtain ⟨-, hparams, -⟩ := Function.mk.inj hf.declaration
  refine (parallel_require (by rw [hparams])).bind fun _ _ _ => parallel_pure (h.withBody ?_)
  have hbody : Body.replaceInstanceRefs M' = Body.replaceInstanceRefs M := by
    funext start b
    simp only [Body.replaceInstanceRefs, Instr.replaceInstanceRef_congr h.functionType]
  rw [hbody]
  exact fun _ _ hf => hf.map_body
    (fun c => (c.mapInstrs (Instr.replaceInstanceRef M "w2c_squanchy_") (fun _ o => o) 0).unmark)
    fun b => (Code.unmark_mapInstrs (Instr.unmark_replaceInstanceRef M _) 0 b.code).symm

theorem replaceFUNCREF_TABLE (h : SameAt D F M M') :
    Parallel (SameAt D F) (replaceFUNCREF_TABLE F M) (replaceFUNCREF_TABLE F M') := by
  have htable : M.getGlobalVariable "FUNCREF_TABLE" = M'.getGlobalVariable "FUNCREF_TABLE" :=
    show M.declarations.getGlobalVariable _ = M'.declarations.getGlobalVariable _ by
      rw [h.declarations]
  unfold Squanchy.replaceFUNCREF_TABLE
  rw [htable]
  split
  · exact .ok h
  · refine (h.parallel_getFunction _).bind fun f f' ⟨_, _, hf⟩ => ?_
    have hfound : f.instrs.all (fun i => !i.2.usesFuncRefTableTwice) =
        f'.instrs.all fun i => !i.2.usesFuncRefTableTwice := by
      have hall (b : Body) : (b.code.instrs 0).all (fun i => !i.2.usesFuncRefTableTwice) =
          (b.code.unmark.instrs 0).all fun i => !i.2.usesFuncRefTableTwice := by
        rw [Code.instrs_unmark, List.all_map]
        congr 1
        funext x
        obtain ⟨d, i⟩ := x
        cases i <;> rfl
      have hcode := hf.code
      unfold Function.instrs
      cases hb : f.body <;> cases hb' : f'.body <;> simp [hb, hb'] at hcode
      · rfl
      · rw [hall, hall, hcode]
    refine (parallel_require (by rw [hfound])).bind fun _ _ _ => parallel_pure (h.withBody ?_)
    exact fun _ _ hf => hf.map_body (·.eraseInstrs Instr.usesFuncRefTable) fun b =>
      Code.unmark_eraseInstrs (fun i => by cases i <;> rfl) b.code

theorem whenSet {R : Module → Module → Prop} {step : Module → Except Abort Module} (option : Bool)
    (hR : R M M') (hstep : Parallel R (step M) (step M')) :
    Parallel R (whenSet option step M) (whenSet option step M') := by
  unfold Squanchy.whenSet
  split
  · exact hstep
  · exact .ok hR

theorem optimizeAndReplace {P : Optimizers} (hP : P.Local) (h : SameAt D F M M') (o : Options) :
    Parallel (SameAt D F) (optimizeAndReplace o P M F) (optimizeAndReplace o P M' F) := by
  unfold Squanchy.optimizeAndReplace
  refine (h.runOn (hP.optimizeFunctionWithCustomPipeline false)).bind fun _ _ h => ?_
  refine (h.runOn hP.optimizeFunction).bind fun _ _ h => ?_
  refine (h.runOn (hP.optimizeFunctionWithCustomPipeline true)).bind fun _ _ h => ?_
  have hrefs := h.replaceInstanceRefs.bind fun _ _ h => h.runOn hP.optimizeFunction
  refine (whenSet o.ReplaceInstanceRefs h hrefs).bind fun _ _ h => ?_
  exact h.replaceFUNCREF_TABLE.bind fun _ _ h => h.runOn hP.optimizeFunction

theorem injectInitializer (h : SameAt D F M M') (hM : SameInlinees M M') (N : String) :
    Parallel (fun M M' => SameAt D F M M' ∧ SameInlinees M M') (injectInitializer N M F)
      (injectInitializer N M' F) := by
  have htypes : M.structTypes = M'.structTypes :=
    show M.declarations.structTypes = M'.declarations.structTypes by rw [h.declarations]
  have henv : envType M = envType M' :=
    show envType M.declarations = envType M'.declarations by rw [h.declarations]
  unfold Squanchy.injectInitializer
  rw [henv, htypes]
  refine (h.parallel_getFunction _).bind fun f f' ⟨hf, hf', hsame⟩ => ?_
  obtain ⟨-, hparams, -⟩ := Function.mk.inj hsame.declaration
  refine (parallel_orThrow_map hsame.code).bind fun b b' hb => ?_
  refine (parallel_require (by rw [hparams])).bind fun _ _ _ => ?_
  refine (parallel_require Iff.rfl).bind fun _ _ _ => ?_
  refine (parallel_refl (envType M')).bind fun STEnv _ hSTEnv => ?_
  have hinstantiate := h.getFunction_declaration "wasm2c_squanchy_instantiate"
  refine (parallel_orThrow_map hinstantiate).bind fun g g' hg => parallel_pure ?_
  have hname : g.name = g'.name := congrArg (·.name) (hg : g.declaration = g'.declaration)
  have htype : g.functionType = g'.functionType :=
    congrArg (·.functionType) (hg : g.declaration = g'.declaration)
  rw [hSTEnv, hname, htype]
  have hcode := unmark_withInitializer hb STEnv (.struct ("struct.w2c_" ++ N)) g'.functionType g'.name
  subst hSTEnv
  exact ⟨h.setBody hcode, hM.setBody (by simp [hf]) (by simp [hf']) hcode⟩

theorem inlineFunctions (h : SameAt D F M M') (hM : SameInlinees M M') (s : Schedule)
    (succeeds : Nat → Path → Bool) (fuel : Nat) (e : Abort) :
    Parallel (SameAt D F) (orThrow e (inlineFunctions s succeeds M F fuel))
      (orThrow e (inlineFunctions s succeeds M' F fuel)) := by
  refine parallel_orThrow ?_
  unfold Squanchy.inlineFunctions
  rcases h.getFunction with ⟨hf, hf'⟩ | ⟨f, f', hf, hf', hsame⟩
  · simp only [Module.bodyOf, hf, hf', Option.bind_none]
    exact .some h
  · have hcode := hsame.code
    simp only [Module.bodyOf, hf, hf', Option.bind_some]
    cases hb : f.body <;> cases hb' : f'.body <;> simp [hb, hb'] at hcode
    · exact .some h
    · rename_i b b'
      have hloop := hM.unmark_inlineLoop (F := F) (by simp [hf]) (by simp [hf']) s succeeds fuel 0
        hcode
      dsimp only
      cases hl : inlineLoop s succeeds M F fuel 0 b <;>
        cases hl' : inlineLoop s succeeds M' F fuel 0 b' <;> simp [hl, hl'] at hloop
      · exact .none
      · exact .some (h.setBody hloop)

end SameAt

end Squanchy
