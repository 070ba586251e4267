import Mathlib.Data.List.Find
import Squanchy.IR.Syntax

/-!
# Renaming the symbols of a module

Functions, globals, aliases and named struct types are known by their symbols. A renaming
acts on all of them at once; attributes, labels, values and the texts of inline asm are not
symbols. A renaming that can be undone on the symbols of a module can be undone on the
module.
-/

namespace Squanchy

/-! ## Symbols -/

def Ty.symbols : Ty → List String
  | .struct n => [n]
  | _ => []

def FunctionType.symbols (t : FunctionType) : List String :=
  t.params.flatMap Ty.symbols ++ t.retTy.symbols

def Operand.symbols : Operand → List String
  | .func g | .global g => [g]
  | .constExpr _ a _ => [a.base]
  | _ => []

def Simple.symbols : Simple → List String
  | .alloca _ ty => ty.symbols
  | .load _ ty p => ty.symbols ++ p.symbols
  | .store ty v p => ty.symbols ++ (v.symbols ++ p.symbols)
  | .gep _ elem b idx => elem.symbols ++ (b.symbols ++ idx.flatMap Operand.symbols)
  | .op _ ty _ args => ty.symbols ++ args.flatMap Operand.symbols

def CallBase.symbols (c : CallBase) : List String :=
  c.functionType.symbols ++ (c.callee.symbols ++ c.args.flatMap Operand.symbols)

def Terminator.symbols (t : Terminator) : List String := t.operands.flatMap Operand.symbols

def Instr.symbols : Instr → List String
  | .simple s => s.symbols
  | .call c => c.symbols
  | .term t => t.symbols

def Code.symbols : Code → List String
  | .stop => []
  | .label _ k => k.symbols
  | .instr i k => i.symbols ++ k.symbols
  | .inlined _ args b k => args.flatMap Operand.symbols ++ (b.symbols ++ k.symbols)

def Function.symbols (f : Function) : List String :=
  f.name :: (f.params.flatMap Ty.symbols ++
    (f.retTy.symbols ++ f.body.toList.flatMap (·.code.symbols)))

def GlobalVariable.symbols (g : GlobalVariable) : List String := [g.name]

def GlobalAlias.symbols (a : GlobalAlias) : List String := [a.name]

def Module.symbols (M : Module) : List String :=
  M.functions.flatMap Function.symbols ++
    (M.globals.flatMap GlobalVariable.symbols ++
      (M.aliases.flatMap GlobalAlias.symbols ++ M.structTypes))

/-! ## Renaming -/

section Rename

variable (ρ : String → String)

def Ty.rename : Ty → Ty
  | .struct n => .struct (ρ n)
  | ty => ty

def FunctionType.rename (t : FunctionType) : FunctionType :=
  ⟨t.params.map (·.rename ρ), t.retTy.rename ρ, t.isVarArg⟩

def ConstAddress.rename : ConstAddress → ConstAddress
  | .global g => .global (ρ g)
  | .expr op a off => .expr op a.rename off

def Operand.rename : Operand → Operand
  | .func g => .func (ρ g)
  | .global g => .global (ρ g)
  | .constExpr op a off => .constExpr op (a.rename ρ) off
  | o => o

def Simple.rename : Simple → Simple
  | .alloca d ty => .alloca d (ty.rename ρ)
  | .load d ty p => .load d (ty.rename ρ) (p.rename ρ)
  | .store ty v p => .store (ty.rename ρ) (v.rename ρ) (p.rename ρ)
  | .gep d elem b idx => .gep d (elem.rename ρ) (b.rename ρ) (idx.map (·.rename ρ))
  | .op d ty o args => .op d (ty.rename ρ) o (args.map (·.rename ρ))

def CallBase.rename (c : CallBase) : CallBase :=
  { c with functionType := c.functionType.rename ρ, callee := c.callee.rename ρ,
           args := c.args.map (·.rename ρ) }

def Instr.rename : Instr → Instr
  | .simple s => .simple (s.rename ρ)
  | .call c => .call (c.rename ρ)
  | .term t => .term (t.mapOperands (·.rename ρ))

def Code.rename : Code → Code
  | .stop => .stop
  | .label l k => .label l k.rename
  | .instr i k => .instr (i.rename ρ) k.rename
  | .inlined dst args b k => .inlined dst (args.map (·.rename ρ)) b.rename k.rename

theorem Operand.inScope_rename (d : Nat) (o : Operand) :
    (o.rename ρ).inScope d = o.inScope d := by
  cases o <;> rfl

theorem Code.inScope_rename (d : Nat) (c : Code) : (c.rename ρ).inScope d = c.inScope d := by
  unfold inScope
  have hi (i : Instr) (d : Nat) : (i.rename ρ).operands.all (fun o => o.inScope d) =
      i.operands.all fun o => o.inScope d := by
    rcases i with (_ | _ | _ | _ | _) | c | (_ | _ | (_ | v) | _) <;>
      simp [Instr.rename, Instr.operands, Simple.rename, Simple.operands, CallBase.rename,
        CallBase.operands, Terminator.mapOperands, Terminator.operands, Function.comp_def,
        Operand.inScope_rename]
  induction c generalizing d with
  | stop => rfl
  | label l k ih => exact ih d
  | instr i k ih => simp [rename, all, hi, ih]
  | inlined dst args b k ihb ihk =>
    simp [rename, all, ihb, ihk, Function.comp_def, Operand.inScope_rename]

def Body.rename (b : Body) : Body :=
  b.withCode (b.code.rename ρ) ((b.code.inScope_rename ρ 0).trans b.closed)

def Function.rename (f : Function) : Function :=
  { f with name := ρ f.name, params := f.params.map (·.rename ρ), retTy := f.retTy.rename ρ,
           body := f.body.map (·.rename ρ) }

def GlobalVariable.rename (g : GlobalVariable) : GlobalVariable := { g with name := ρ g.name }

def GlobalAlias.rename (a : GlobalAlias) : GlobalAlias := { a with name := ρ a.name }

def Module.rename (M : Module) : Module where
  functions := M.functions.map (·.rename ρ)
  globals := M.globals.map (·.rename ρ)
  aliases := M.aliases.map (·.rename ρ)
  structTypes := M.structTypes.map ρ
  added := M.added

end Rename

/-! ## Renaming in two steps -/

section Comp

variable (ρ σ : String → String)

theorem Ty.rename_comp (ty : Ty) : (ty.rename ρ).rename σ = ty.rename (σ ∘ ρ) := by
  cases ty <;> rfl

theorem FunctionType.rename_comp (t : FunctionType) :
    (t.rename ρ).rename σ = t.rename (σ ∘ ρ) := by
  simp [rename, Ty.rename_comp, Function.comp_def]

theorem ConstAddress.rename_comp (a : ConstAddress) : (a.rename ρ).rename σ = a.rename (σ ∘ ρ) := by
  induction a with
  | global g => rfl
  | expr op a off ih => simp only [rename, ih]

theorem Operand.rename_comp (o : Operand) : (o.rename ρ).rename σ = o.rename (σ ∘ ρ) := by
  cases o with
  | constExpr op a off => simp only [rename, a.rename_comp]
  | _ => rfl

theorem Instr.rename_comp (i : Instr) : (i.rename ρ).rename σ = i.rename (σ ∘ ρ) := by
  rcases i with (_ | _ | _ | _ | _) | c | (_ | _ | (_ | v) | _) <;>
    simp [rename, Simple.rename, CallBase.rename, Terminator.mapOperands, Ty.rename_comp,
      FunctionType.rename_comp, Operand.rename_comp]

theorem Code.rename_comp (c : Code) : (c.rename ρ).rename σ = c.rename (σ ∘ ρ) := by
  induction c with
  | stop => rfl
  | label l k ih => simp only [rename, ih]
  | instr i k ih => simp only [rename, i.rename_comp, ih]
  | inlined dst args b k ihb ihk =>
    simp only [rename, List.map_map, Function.comp_def, Operand.rename_comp, ihb, ihk]

theorem Body.ext_code {b b' : Body} (he : b.entry = b'.entry) (hc : b.code = b'.code) :
    b = b' := by
  cases b
  cases b'
  cases he
  cases hc
  rfl

theorem Function.rename_comp (f : Function) : (f.rename ρ).rename σ = f.rename (σ ∘ ρ) := by
  have hb (b : Body) : (b.rename ρ).rename σ = b.rename (σ ∘ ρ) :=
    Body.ext_code rfl (b.code.rename_comp ρ σ)
  simp [rename, Ty.rename_comp, hb, Function.comp_def]

theorem Module.rename_comp (M : Module) : (M.rename ρ).rename σ = M.rename (σ ∘ ρ) := by
  simp [rename, Function.rename_comp, GlobalVariable.rename, GlobalAlias.rename, Function.comp_def]

end Comp

/-! ## Undoing a renaming -/

section Inverse

variable {ρ σ τ : String → String}

/-- `τ` leaves each of these symbols as it is. -/
def Fixes (τ : String → String) (symbols : List String) : Prop := ∀ s ∈ symbols, τ s = s

/-- `σ` gives back each of these symbols after `ρ`. -/
abbrev Undoes (σ ρ : String → String) (symbols : List String) : Prop := Fixes (σ ∘ ρ) symbols

@[simp] theorem fixes_cons {s : String} {ss : List String} :
    Fixes τ (s :: ss) ↔ τ s = s ∧ Fixes τ ss := by
  simp [Fixes]

@[simp] theorem fixes_append {ss ts : List String} :
    Fixes τ (ss ++ ts) ↔ Fixes τ ss ∧ Fixes τ ts := by
  simp [Fixes, or_imp, forall_and]

theorem Fixes.mono {ss ts : List String} (h : Fixes τ ts) (hst : ss ⊆ ts) : Fixes τ ss :=
  fun s hs => h s (hst hs)

/-- A renaming that can be undone tells symbols apart. -/
theorem Undoes.eq_iff {ss : List String} (h : Undoes σ ρ ss) {s t : String} (hs : s ∈ ss)
    (ht : σ (ρ t) = t) : ρ s = ρ t ↔ s = t := by
  constructor
  · intro heq
    have hs : σ (ρ s) = s := h s hs
    rw [← hs, heq, ht]
  · exact congrArg ρ

/-- What changes no member changes no list. -/
theorem map_fixes {α : Type} {symbols : α → List String} {f : α → α} {xs : List α}
    (hf : ∀ x, Fixes τ (symbols x) → f x = x) (h : Fixes τ (xs.flatMap symbols)) :
    xs.map f = xs := by
  have hid : xs.map f = xs.map id := List.map_congr_left fun x hx =>
    hf x (h.mono fun s hs => List.mem_flatMap.mpr ⟨x, hx, hs⟩)
  rw [hid, List.map_id]

theorem Ty.rename_fixes {ty : Ty} (h : Fixes τ ty.symbols) : ty.rename τ = ty := by
  cases ty <;> grind [Fixes, symbols, rename]

theorem FunctionType.rename_fixes {t : FunctionType} (h : Fixes τ t.symbols) :
    t.rename τ = t := by
  obtain ⟨hparams, hret⟩ := fixes_append.mp h
  simp only [rename, map_fixes (fun _ => Ty.rename_fixes) hparams, t.retTy.rename_fixes hret]

theorem ConstAddress.rename_fixes {a : ConstAddress} (h : τ a.base = a.base) : a.rename τ = a := by
  induction a with
  | global g => exact congrArg ConstAddress.global h
  | expr op a off ih => rw [rename, ih h]

theorem Operand.rename_fixes {o : Operand} (h : Fixes τ o.symbols) : o.rename τ = o := by
  cases o with
  | constExpr op a off =>
    rw [rename, ConstAddress.rename_fixes (h a.base (List.mem_singleton_self _))]
  | _ => grind [Fixes, symbols, rename]

theorem Simple.rename_fixes {s : Simple} (h : Fixes τ s.symbols) : s.rename τ = s := by
  cases s with
  | alloca d ty => simp only [rename, ty.rename_fixes h]
  | load d ty p =>
    obtain ⟨hty, hp⟩ := fixes_append.mp h
    simp only [rename, ty.rename_fixes hty, p.rename_fixes hp]
  | store ty v p =>
    simp only [symbols, fixes_append] at h
    simp only [rename, ty.rename_fixes h.1, v.rename_fixes h.2.1, p.rename_fixes h.2.2]
  | gep d elem b idx =>
    simp only [symbols, fixes_append] at h
    simp only [rename, elem.rename_fixes h.1, b.rename_fixes h.2.1,
      map_fixes (fun _ => Operand.rename_fixes) h.2.2]
  | op d ty o args =>
    simp only [symbols, fixes_append] at h
    simp only [rename, ty.rename_fixes h.1, map_fixes (fun _ => Operand.rename_fixes) h.2]

theorem CallBase.rename_fixes {c : CallBase} (h : Fixes τ c.symbols) : c.rename τ = c := by
  simp only [symbols, fixes_append] at h
  simp only [rename, c.functionType.rename_fixes h.1, c.callee.rename_fixes h.2.1,
    map_fixes (fun _ => Operand.rename_fixes) h.2.2]

theorem Terminator.rename_fixes {t : Terminator} (h : Fixes τ t.symbols) :
    t.mapOperands (·.rename τ) = t := by
  rcases t with l | ⟨c, t, e⟩ | (_ | v) | _
  · rfl
  · simp only [mapOperands, c.rename_fixes (by simpa [symbols, operands] using h)]
  · rfl
  · simp only [mapOperands, Option.map_some,
      v.rename_fixes (by simpa [symbols, operands] using h)]
  · rfl

theorem Instr.rename_fixes {i : Instr} (h : Fixes τ i.symbols) : i.rename τ = i := by
  cases i with
  | simple s => exact congrArg Instr.simple (s.rename_fixes h)
  | call c => exact congrArg Instr.call (c.rename_fixes h)
  | term t => exact congrArg Instr.term (t.rename_fixes h)

theorem Code.rename_fixes {c : Code} (h : Fixes τ c.symbols) : c.rename τ = c := by
  induction c with
  | stop => rfl
  | label l k ih => simp only [rename, ih h]
  | instr i k ih =>
    obtain ⟨hi, hk⟩ := fixes_append.mp h
    simp only [rename, i.rename_fixes hi, ih hk]
  | inlined dst args b k ihb ihk =>
    simp only [symbols, fixes_append] at h
    simp only [rename, map_fixes (fun _ => Operand.rename_fixes) h.1, ihb h.2.1, ihk h.2.2]

theorem Function.rename_fixes {f : Function} (h : Fixes τ f.symbols) : f.rename τ = f := by
  obtain ⟨name, params, retTy, attrs, body, linkage, isVarArg⟩ := f
  simp only [symbols, fixes_cons, fixes_append] at h
  obtain ⟨hname, hparams, hret, hbody⟩ := h
  have hb : body.map (·.rename τ) = body := by
    cases body with
    | none => rfl
    | some b =>
      have hcode : Fixes τ b.code.symbols := by simpa using hbody
      exact congrArg some (Body.ext_code rfl (Code.rename_fixes hcode))
  simp only [rename, hname, map_fixes (fun _ => Ty.rename_fixes) hparams,
    retTy.rename_fixes hret, hb]

theorem GlobalVariable.rename_fixes {g : GlobalVariable} (h : Fixes τ g.symbols) :
    g.rename τ = g := by
  have hname : τ g.name = g.name := h g.name (List.mem_singleton_self _)
  simp only [rename, hname]

theorem GlobalAlias.rename_fixes {a : GlobalAlias} (h : Fixes τ a.symbols) : a.rename τ = a := by
  have hname : τ a.name = a.name := h a.name (List.mem_singleton_self _)
  simp only [rename, hname]

theorem Module.rename_fixes {M : Module} (h : Fixes τ M.symbols) : M.rename τ = M := by
  obtain ⟨functions, globals, aliases, structTypes, added⟩ := M
  simp only [symbols, fixes_append] at h
  obtain ⟨hfun, hglob, halias, hstruct⟩ := h
  have hmap {ss : List String} (hss : Fixes τ ss) : ss.map τ = ss :=
    map_fixes (fun s hs => hs s (List.mem_singleton_self s)) (by simpa using hss)
  simp only [rename, map_fixes (fun _ => Function.rename_fixes) hfun,
    map_fixes (fun _ => GlobalVariable.rename_fixes) hglob,
    map_fixes (fun _ => GlobalAlias.rename_fixes) halias, hmap hstruct]

/-- A renaming that is undone on the symbols of a module is undone on the module. -/
theorem Module.rename_rename {M : Module} (h : Undoes σ ρ M.symbols) :
    (M.rename ρ).rename σ = M :=
  (M.rename_comp ρ σ).trans (rename_fixes h)

/-- A function is found under its new symbol. -/
theorem Module.getFunction_rename {M : Module} (h : Undoes σ ρ M.symbols) {n : String}
    (hn : σ (ρ n) = n) :
    (M.rename ρ).getFunction (ρ n) = (M.getFunction n).map (·.rename ρ) := by
  have hname : ∀ f ∈ M.functions, ((f.rename ρ).name == ρ n) = (f.name == n) := by
    intro f hf
    have hmem : f.name ∈ M.symbols := by
      refine List.mem_append_left _ (List.mem_flatMap.mpr ⟨f, hf, ?_⟩)
      simp [Function.symbols]
    rw [Bool.eq_iff_iff, beq_iff_eq, beq_iff_eq]
    exact h.eq_iff hmem hn
  rw [getFunction, getFunction, rename, List.find?_map]
  exact congrArg _ (List.find?_congr hname)

theorem FunctionType.rename_eq_iff {t t' : FunctionType} (h : Undoes σ ρ t.symbols)
    (h' : Undoes σ ρ t'.symbols) : t.rename ρ = t'.rename ρ ↔ t = t' := by
  constructor
  · intro heq
    rw [← rename_fixes h, ← rename_comp, heq, rename_comp, rename_fixes h']
  · exact congrArg _

theorem Module.functionType_rename {M : Module} (h : Undoes σ ρ M.symbols) {n : String}
    (hn : σ (ρ n) = n) :
    (M.rename ρ).functionType (ρ n) = (M.functionType n).map (·.rename ρ) := by
  rw [functionType, getFunction_rename h hn, functionType, Option.map_map, Option.map_map]
  rfl

theorem Module.symbols_functionType {M : Module} {n : String} {t : FunctionType}
    (ht : M.functionType n = some t) : t.symbols ⊆ M.symbols := by
  obtain ⟨f, hf, rfl⟩ := Option.map_eq_some_iff.mp ht
  intro s hs
  refine List.mem_append_left _ (List.mem_flatMap.mpr ⟨f, List.mem_of_find?_eq_some hf, ?_⟩)
  simp only [Function.functionType, FunctionType.symbols, List.mem_append] at hs
  simp only [Function.symbols, List.mem_cons, List.mem_append]
  tauto

/-- A call calls the same function directly, under its new symbol. -/
theorem CallBase.getCalledFunction_rename {M : Module} {c : CallBase}
    (hM : Undoes σ ρ M.symbols) (hc : Undoes σ ρ c.symbols) :
    (c.rename ρ).getCalledFunction (M.rename ρ) = (c.getCalledFunction M).map ρ := by
  obtain ⟨htype, hcallee, -⟩ : Undoes σ ρ c.functionType.symbols ∧ Undoes σ ρ c.callee.symbols ∧
      Undoes σ ρ (c.args.flatMap Operand.symbols) := by
    simpa only [symbols, fixes_append] using hc
  have hsame (g : String) (hg : σ (ρ g) = g) :
      (M.rename ρ).functionType (ρ g) = some (c.functionType.rename ρ) ↔
        M.functionType g = some c.functionType := by
    rw [Module.functionType_rename hM hg]
    cases ht : M.functionType g with
    | none => simp
    | some t =>
      have htM : Undoes σ ρ t.symbols := hM.mono (Module.symbols_functionType ht)
      simp only [Option.map_some, Option.some_inj, FunctionType.rename_eq_iff htM htype]
  unfold getCalledFunction namedCallee
  cases hcal : c.callee with
  | func g =>
    have hg : σ (ρ g) = g := hcallee g (by simp [hcal, Operand.symbols])
    by_cases ht : M.functionType g = some c.functionType <;>
      simp [rename, hcal, Operand.rename, Option.filter_some, hsame g hg, ht]
  | _ => simp [rename, hcal, Operand.rename]

/-! ## Rewrites that follow a renaming -/

theorem Code.rename_mapInstrs {f f' : Nat → Instr → Instr} {c : Code}
    (h : Undoes σ ρ c.symbols)
    (hf : ∀ d i, Undoes σ ρ i.symbols → (f d i).rename ρ = f' d (i.rename ρ)) (d : Nat) :
    (c.mapInstrs f (fun _ o => o) d).rename ρ = (c.rename ρ).mapInstrs f' (fun _ o => o) d := by
  induction c generalizing d with
  | stop => rfl
  | label l k ih => simp only [mapInstrs, rename, ih h]
  | instr i k ih =>
    obtain ⟨hi, hk⟩ := fixes_append.mp h
    simp only [mapInstrs, rename, hf d i hi, ih hk]
  | inlined dst args b k ihb ihk =>
    simp only [symbols, fixes_append] at h
    simp only [mapInstrs, rename, ihb h.2.1, ihk h.2.2, List.map_id_fun', id]

theorem append_subset_append {ss ts ss' ts' : List String} (h : ss ⊆ ss') (h' : ts ⊆ ts') :
    ss ++ ts ⊆ ss' ++ ts' :=
  List.append_subset.mpr ⟨List.subset_append_of_subset_left _ h,
    List.subset_append_of_subset_right _ h'⟩

theorem Code.symbols_mapInstrs {f : Nat → Instr → Instr}
    (hf : ∀ d i, (f d i).symbols ⊆ i.symbols) (d : Nat) (c : Code) :
    (c.mapInstrs f (fun _ o => o) d).symbols ⊆ c.symbols := by
  induction c generalizing d with
  | stop => exact List.Subset.refl _
  | label l k ih => exact ih d
  | instr i k ih => exact append_subset_append (hf d i) (ih d)
  | inlined dst args b k ihb ihk =>
    simp only [mapInstrs, symbols, List.map_id_fun', id]
    exact append_subset_append (List.Subset.refl _)
      (append_subset_append (ihb _) (ihk d))

theorem Function.symbols_mapBody {f : Function} {g : Body → Body}
    (hg : ∀ b, (g b).code.symbols ⊆ b.code.symbols) :
    ({ f with body := f.body.map g } : Function).symbols ⊆ f.symbols := by
  obtain ⟨name, params, retTy, attrs, body, linkage, isVarArg⟩ := f
  cases body with
  | none => exact List.Subset.refl _
  | some b =>
    refine List.cons_subset_cons _ (append_subset_append (List.Subset.refl _)
      (append_subset_append (List.Subset.refl _) ?_))
    simpa only [Option.map_some, Option.toList_some, List.flatMap_singleton] using hg b

theorem Module.undoes_function {M : Module} (h : Undoes σ ρ M.symbols) {f : Function}
    (hf : f ∈ M.functions) : Undoes σ ρ f.symbols :=
  h.mono fun _ hs => List.mem_append_left _ (List.mem_flatMap.mpr ⟨f, hf, hs⟩)

theorem Module.rename_mapFunctions {M : Module} {f f' : Function → Function}
    (hf : ∀ g ∈ M.functions, (f g).rename ρ = f' (g.rename ρ)) :
    (M.mapFunctions f).rename ρ = (M.rename ρ).mapFunctions f' := by
  simp only [rename, mapFunctions, List.map_map, Module.mk.injEq, and_self, and_true]
  exact List.map_congr_left hf

theorem Module.symbols_mapFunctions {f : Function → Function}
    (hf : ∀ g, (f g).symbols ⊆ g.symbols) (M : Module) :
    (M.mapFunctions f).symbols ⊆ M.symbols := by
  refine append_subset_append (fun s hs => ?_) (List.Subset.refl _)
  simp only [mapFunctions, List.flatMap_map, List.mem_flatMap] at hs ⊢
  obtain ⟨g, hg, hs⟩ := hs
  exact ⟨g, hg, hf g hs⟩

theorem Module.rename_modify {M : Module} (h : Undoes σ ρ M.symbols) {n : String}
    (hn : σ (ρ n) = n) {f f' : Function → Function}
    (hf : ∀ g ∈ M.functions, (f g).rename ρ = f' (g.rename ρ)) :
    (M.modify n f).rename ρ = (M.rename ρ).modify (ρ n) f' := by
  apply rename_mapFunctions
  intro g hg
  have hname : ρ g.name = ρ n ↔ g.name = n :=
    (undoes_function h hg).eq_iff List.mem_cons_self hn
  by_cases hgn : g.name = n
  · simpa [Function.rename, hgn] using hf g hg
  · simp [Function.rename, hgn, hname]

theorem Module.symbols_modify (M : Module) (n : String) {f : Function → Function}
    (hf : ∀ g, (f g).symbols ⊆ g.symbols) : (M.modify n f).symbols ⊆ M.symbols := by
  refine symbols_mapFunctions (fun g => ?_) M
  split <;> [exact hf g; exact List.Subset.refl _]

end Inverse

end Squanchy
