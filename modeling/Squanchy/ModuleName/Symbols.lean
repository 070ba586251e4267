import Squanchy.Attributes
import Squanchy.IR.Rename

/-!
# Symbols derived from the module name

`wasm2c -n N` derives the symbols of a module from the name `N`: its instance type, its
instantiate function, its limits and its functions. They are renamed here to those of the
name `squanchy`, which can be undone on any module that has no such symbols of its own. The
marks on the helpers follow the renaming.
-/

namespace Squanchy

open Library

/-! ## Symbols derived from a module name -/

theorem startsWith_iff {s start : String} : startsWith s start = true ↔ ∃ r, s = start ++ r := by
  rw [startsWith, List.isPrefixOf_iff_prefix]
  constructor
  · rintro ⟨r, hr⟩
    exact ⟨String.ofList r, String.toList_inj.mp (by simp [hr])⟩
  · rintro ⟨r, rfl⟩
    exact ⟨r.toList, by simp⟩

/-- Put `new` in the place of the start `old`. -/
def replaceStart (old new s : String) : String :=
  new ++ String.ofList (s.toList.drop old.toList.length)

theorem replaceStart_append (old new r : String) :
    replaceStart old new (old ++ r) = new ++ r := by
  simp [replaceStart]

/-- The symbols that `wasm2c -n A` makes, under the names that `-n B` gives them. -/
def renameSymbol (A B s : String) : String :=
  if s = "struct.w2c_" ++ A then "struct.w2c_" ++ B
  else if startsWith s ("wasm2c_" ++ A ++ "_") then
    replaceStart ("wasm2c_" ++ A ++ "_") ("wasm2c_" ++ B ++ "_") s
  else if startsWith s ("w2c_" ++ A ++ "_") then
    replaceStart ("w2c_" ++ A ++ "_") ("w2c_" ++ B ++ "_") s
  else s

section Derived

variable (A B r : String)

theorem renameSymbol_struct : renameSymbol A B ("struct.w2c_" ++ A) = "struct.w2c_" ++ B := by
  simp [renameSymbol]

theorem renameSymbol_wasm2c :
    renameSymbol A B ("wasm2c_" ++ A ++ "_" ++ r) = "wasm2c_" ++ B ++ "_" ++ r := by
  have hstruct : "wasm2c_" ++ A ++ "_" ++ r ≠ "struct.w2c_" ++ A := by
    intro h
    simpa using congrArg String.toList h
  rw [renameSymbol, if_neg hstruct, if_pos (startsWith_iff.mpr ⟨r, rfl⟩), replaceStart_append]

theorem renameSymbol_w2c :
    renameSymbol A B ("w2c_" ++ A ++ "_" ++ r) = "w2c_" ++ B ++ "_" ++ r := by
  have hstruct : "w2c_" ++ A ++ "_" ++ r ≠ "struct.w2c_" ++ A := by
    intro h
    simpa using congrArg String.toList h
  have hwasm2c : ¬startsWith ("w2c_" ++ A ++ "_" ++ r) ("wasm2c_" ++ A ++ "_") = true := by
    simp [startsWith]
  rw [renameSymbol, if_neg hstruct, if_neg hwasm2c, if_pos (startsWith_iff.mpr ⟨r, rfl⟩),
    replaceStart_append]

end Derived

/-- A symbol is derived from a name, or keeps its own. -/
theorem renameSymbol_cases (A B s : String) :
    s = "struct.w2c_" ++ A ∨ (∃ r, s = "wasm2c_" ++ A ++ "_" ++ r) ∨
      (∃ r, s = "w2c_" ++ A ++ "_" ++ r) ∨ renameSymbol A B s = s := by
  unfold renameSymbol
  split
  · exact .inl ‹_›
  · split
    · exact .inr (.inl (startsWith_iff.mp ‹_›))
    · split
      · exact .inr (.inr (.inl (startsWith_iff.mp ‹_›)))
      · exact .inr (.inr (.inr rfl))

theorem renameSymbol_self (A s : String) : renameSymbol A A s = s := by
  rcases renameSymbol_cases A A s with rfl | ⟨r, rfl⟩ | ⟨r, rfl⟩ | h
  · exact renameSymbol_struct A A
  · exact renameSymbol_wasm2c A A r
  · exact renameSymbol_w2c A A r
  · exact h

/-- A symbol of `wasm2c` that no module name enters. -/
def isFixed (s : String) : Bool :=
  !startsWith s "struct.w2c_" && !startsWith s "wasm2c_" && !startsWith s "w2c_"

theorem renameSymbol_of_isFixed {s : String} (h : isFixed s = true) (A B : String) :
    renameSymbol A B s = s := by
  rcases renameSymbol_cases A B s with rfl | ⟨r, rfl⟩ | ⟨r, rfl⟩ | h'
  · simp [isFixed, startsWith] at h
  · simp [isFixed, startsWith] at h
  · simp [isFixed, startsWith] at h
  · exact h'

/-- Neither word holds the separator, so the split is the only one. -/
theorem append_separator_inj {a b n r : List Char} (ha : '_' ∉ a) (hb : '_' ∉ b)
    (h : n ++ '_' :: r = a ++ '_' :: b) : n = a := by
  rcases List.append_eq_append_iff.mp h with ⟨t, ht, ht'⟩ | ⟨t, ht, ht'⟩
  · cases t with
    | nil => simpa using ht.symm
    | cons c t =>
      obtain ⟨rfl, -⟩ := List.cons.inj ht'
      exact absurd (by simp [ht]) ha
  · cases t with
    | nil => simpa using ht
    | cons c t =>
      obtain ⟨-, rfl⟩ := List.cons.inj ht'
      exact absurd (by simp) hb

section Undone

variable {N s : String}

/-- The symbol can be renamed to the one of `squanchy` and back. -/
abbrev Undone (N s : String) : Prop :=
  renameSymbol "squanchy" N (renameSymbol N "squanchy" s) = s

theorem undone_wasm2c (N r : String) : Undone N ("wasm2c_" ++ N ++ "_" ++ r) := by
  rw [Undone, renameSymbol_wasm2c, renameSymbol_wasm2c]

/-- A call of a function of the module is one after the renaming. -/
theorem Undone.startsWith_renameSymbol (h : Undone N s) :
    startsWith (renameSymbol N "squanchy" s) "w2c_squanchy_" =
      startsWith s ("w2c_" ++ N ++ "_") := by
  have hsplit : ("w2c_squanchy_" : String) = "w2c_" ++ "squanchy" ++ "_" := rfl
  rw [Bool.eq_iff_iff, startsWith_iff, startsWith_iff, hsplit]
  constructor
  · rintro ⟨r, hr⟩
    rw [Undone, hr, renameSymbol_w2c] at h
    exact ⟨r, h.symm⟩
  · rintro ⟨r, rfl⟩
    exact ⟨r, renameSymbol_w2c N "squanchy" r⟩

/-- What looks like a function of `squanchy` is one of `N`, whose name begins so. -/
theorem Undone.startsWith_of_squanchy (h : Undone N s)
    (hs : startsWith s "w2c_squanchy_" = true) : startsWith s ("w2c_" ++ N ++ "_") = true := by
  rw [← h.startsWith_renameSymbol]
  rcases renameSymbol_cases N "squanchy" s with rfl | ⟨r, rfl⟩ | ⟨r, rfl⟩ | hid
  · simp [startsWith] at hs
  · simp [startsWith] at hs
  · exact startsWith_iff.mpr ⟨r, renameSymbol_w2c N "squanchy" r⟩
  · rwa [hid]

theorem squanchy_or_startsWith (hs : startsWith s "w2c_squanchy_" = true)
    (hN : startsWith s ("w2c_" ++ N ++ "_") = true) :
    N = "squanchy" ∨ startsWith N "squanchy_" = true := by
  obtain ⟨r, rfl⟩ := startsWith_iff.mp hs
  obtain ⟨t, ht⟩ := startsWith_iff.mp hN
  have hchars : N.toList ++ '_' :: t.toList = "squanchy".toList ++ '_' :: r.toList := by
    simpa using (congrArg String.toList ht).symm
  rcases List.append_eq_append_iff.mp hchars with ⟨u, hu, hu'⟩ | ⟨u, hu, hu'⟩
  · cases u with
    | nil => exact .inl (String.toList_inj.mp (by simpa using hu.symm))
    | cons c u =>
      obtain ⟨rfl, -⟩ := List.cons.inj hu'
      exact absurd (hu ▸ List.mem_append_right _ List.mem_cons_self) (by decide)
  · cases u with
    | nil => exact .inl (String.toList_inj.mp (by simpa using hu))
    | cons c u =>
      obtain ⟨rfl, -⟩ := List.cons.inj hu'
      refine .inr (startsWith_iff.mpr ⟨String.ofList u, String.toList_inj.mp ?_⟩)
      simp [hu]

/-- Under another name no function has the symbol that the injection asks for. -/
theorem Undone.ne_instantiate (hN : N ≠ "squanchy") (h : Undone N s) :
    s ≠ "wasm2c_squanchy_instantiate" := by
  rintro rfl
  have hsplit : "wasm2c_squanchy_instantiate" = "wasm2c_" ++ "squanchy" ++ "_" ++ "instantiate" :=
    rfl
  have hword {r : List Char} (hr : N.toList ++ '_' :: r =
      "squanchy".toList ++ '_' :: "instantiate".toList) : False :=
    hN (String.toList_inj.mp (append_separator_inj (by decide) (by decide) hr))
  rcases renameSymbol_cases N "squanchy" "wasm2c_squanchy_instantiate" with
    hs | ⟨r, hr⟩ | ⟨r, hr⟩ | hid
  · simpa using congrArg String.toList hs
  · exact hword (by simpa using (congrArg String.toList hr).symm)
  · simpa using congrArg String.toList hr
  · rw [Undone, hid, hsplit, renameSymbol_wasm2c] at h
    exact hword (by simpa using congrArg String.toList h)

end Undone

/-! ## The marks follow the name -/

/-- All helpers but the instantiate function. -/
def fixedHelpers : List String := (helperFunctions "").tail

/-- Only the first helper depends on the name. -/
theorem helperFunctions_eq (N : String) : helperFunctions N =
    ("wasm2c_" ++ N ++ "_" ++ "instantiate") :: fixedHelpers := by
  rw [String.append_assoc]
  rfl

theorem renameSymbol_fixedHelper {n : String} (hn : n ∈ fixedHelpers) (A B : String) :
    renameSymbol A B n = n := by
  have hfixed : ∀ n ∈ fixedHelpers, isFixed n = true := by decide +kernel
  exact renameSymbol_of_isFixed (hfixed n hn) A B

theorem helperFunctions_rename (N : String) :
    (helperFunctions N).map (renameSymbol N "squanchy") = helperFunctions "squanchy" := by
  have hfixed : fixedHelpers.map (renameSymbol N "squanchy") = fixedHelpers.map id :=
    List.map_congr_left fun n hn => renameSymbol_fixedHelper hn N "squanchy"
  rw [helperFunctions_eq, helperFunctions_eq, List.map_cons, renameSymbol_wasm2c, hfixed,
    List.map_id]

theorem undone_helper {N n : String} (hn : n ∈ helperFunctions N) : Undone N n := by
  rw [helperFunctions_eq, List.mem_cons] at hn
  rcases hn with rfl | hn
  · exact undone_wasm2c N "instantiate"
  · rw [Undone, renameSymbol_fixedHelper hn, renameSymbol_fixedHelper hn]

section Marks

variable {ρ σ : String → String}

theorem CallBase.rename_markUse {c : CallBase} {g : String} (h : Undoes σ ρ c.symbols)
    (hg : σ (ρ g) = g) : (c.markUse g).rename ρ = (c.rename ρ).markUse (ρ g) := by
  have hop : ∀ o ∈ c.operands, o.rename ρ = .func (ρ g) ↔ o = .func g := by
    intro o ho
    cases o with
    | func f =>
      have hf : f ∈ c.symbols := by
        rcases List.mem_append.mp ho with ho | ho
        · simp only [symbols, List.mem_append, List.mem_flatMap]
          exact .inr (.inr ⟨_, ho, List.mem_singleton_self f⟩)
        · rw [List.mem_singleton] at ho
          simp [symbols, ← ho, Operand.symbols]
      simp [Operand.rename, h.eq_iff hf hg]
    | _ => simp [Operand.rename]
  have hmem : .func (ρ g) ∈ (c.rename ρ).operands ↔ .func g ∈ c.operands := by
    have hmap : (c.rename ρ).operands = c.operands.map (·.rename ρ) := by
      simp [operands, rename]
    rw [hmap, List.mem_map]
    constructor
    · rintro ⟨o, ho, hr⟩
      exact (hop o ho).mp hr ▸ ho
    · exact fun ho => ⟨_, ho, rfl⟩
  have hcall : (c.rename ρ).isCallInst = c.isCallInst := rfl
  unfold markUse
  by_cases hc : c.isCallInst && decide (.func g ∈ c.operands)
  · rw [if_pos hc, if_pos (by simpa [hcall, hmem] using hc)]
    rfl
  · rw [if_neg hc, if_neg (by simpa [hcall, hmem] using hc)]

theorem Function.rename_markUses {f : Function} {g : String} (h : Undoes σ ρ f.symbols)
    (hg : σ (ρ g) = g) : (f.markUses g).rename ρ = (f.rename ρ).markUses (ρ g) := by
  obtain ⟨name, params, retTy, attrs, body, linkage, isVarArg⟩ := f
  cases body with
  | none => rfl
  | some b =>
    have hb : Undoes σ ρ b.code.symbols := by
      simp only [symbols, fixes_cons, fixes_append] at h
      simpa using h.2.2.2
    refine congrArg (Function.mk _ _ _ _ · linkage isVarArg) (congrArg some (Body.ext_code rfl ?_))
    refine Code.rename_mapInstrs hb (fun _ i hi => ?_) 0
    cases i with
    | call c => exact congrArg Instr.call (c.rename_markUse hi hg)
    | _ => rfl

theorem Function.symbols_markUses (g : String) (f : Function) :
    (f.markUses g).symbols ⊆ f.symbols := by
  refine Function.symbols_mapBody fun b => Code.symbols_mapInstrs (fun _ i => ?_) 0 b.code
  cases i with
  | call c =>
    simp only [CallBase.markUse]
    split <;> exact List.Subset.refl _
  | _ => exact List.Subset.refl _

theorem symbols_setFunctionAlwayInline (n : String) (M : Module) :
    (setFunctionAlwayInline n M).symbols ⊆ M.symbols := by
  unfold setFunctionAlwayInline
  split
  · exact List.Subset.refl _
  · split
    · exact List.Subset.refl _
    · exact List.Subset.trans (Module.symbols_mapFunctions (Function.symbols_markUses n) _)
        (M.symbols_modify n fun _ => List.Subset.refl _)

theorem rename_setFunctionAlwayInline {n : String} {M : Module} (h : Undoes σ ρ M.symbols)
    (hn : σ (ρ n) = n) :
    (setFunctionAlwayInline n M).rename ρ = setFunctionAlwayInline (ρ n) (M.rename ρ) := by
  unfold setFunctionAlwayInline
  rw [Module.getFunction_rename h hn]
  cases M.getFunction n with
  | none => rfl
  | some F =>
    have hattr : (F.rename ρ).hasFnAttribute .alwaysInline = F.hasFnAttribute .alwaysInline := rfl
    simp only [Option.map_some, hattr]
    split
    · rfl
    · have hmod : Undoes σ ρ (M.modify n (·.addFnAttr .alwaysInline)).symbols :=
        h.mono (M.symbols_modify n fun _ => List.Subset.refl _)
      have hadd : (M.modify n (·.addFnAttr .alwaysInline)).rename ρ =
          (M.rename ρ).modify (ρ n) (·.addFnAttr .alwaysInline) :=
        Module.rename_modify h hn fun _ _ => rfl
      rw [Module.rename_mapFunctions fun g hg =>
          Function.rename_markUses (Module.undoes_function hmod hg) hn,
        hadd]

theorem marks_rename {names : List String} {M : Module} (h : Undoes σ ρ M.symbols)
    (hnames : ∀ n ∈ names, σ (ρ n) = n) :
    (names.foldl (fun M n => setFunctionAlwayInline n M) M).symbols ⊆ M.symbols ∧
      (names.foldl (fun M n => setFunctionAlwayInline n M) M).rename ρ =
        (names.map ρ).foldl (fun M n => setFunctionAlwayInline n M) (M.rename ρ) := by
  induction names generalizing M with
  | nil => exact ⟨List.Subset.refl _, rfl⟩
  | cons n names ih =>
    have hsub := symbols_setFunctionAlwayInline n M
    obtain ⟨hs, hr⟩ := ih (h.mono hsub) fun m hm => hnames m (List.mem_cons_of_mem _ hm)
    refine ⟨List.Subset.trans hs hsub, ?_⟩
    rw [List.foldl_cons, hr, rename_setFunctionAlwayInline h (hnames n List.mem_cons_self)]
    rfl

end Marks

end Squanchy
