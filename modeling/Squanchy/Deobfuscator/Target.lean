import Squanchy.Library.Layout

/-!
# The data layout

The modules come from clang for x86-64, which has fixed the sizes of their structures as
constants. `overrideTarget` keeps the triple and sets the data layout to the empty string,
LLVM's default, where an `i64` may start at any multiple of 4. Offsets, sizes and alignments
are computed anew from it. How LLVM reads a data layout is a parameter.
-/

namespace Squanchy

open Library

inductive ScalarTy where
  | i1
  | i8
  | i16
  | i32
  | i64
  | float
  | double
  | ptr
  deriving DecidableEq, Repr

def ScalarTy.size : ScalarTy → Nat
  | .i1 | .i8 => 1
  | .i16 => 2
  | .i32 | .float => 4
  | .i64 | .double | .ptr => 8

abbrev DataLayout := Layout ScalarTy

/-- All scalars are naturally aligned. -/
def DataLayout.x86_64 : DataLayout where
  size := ScalarTy.size
  align := ScalarTy.size
  align_pos := by intro s; cases s <;> decide
  align_dvd_size := fun s => Nat.dvd_refl s.size

/-- The layout of the empty string. -/
def DataLayout.default : DataLayout where
  size := ScalarTy.size
  align := fun s => if s = .i64 then 4 else s.size
  align_pos := by intro s; cases s <;> decide
  align_dvd_size := by intro s; cases s <;> decide

theorem x86_64_relaxes_default : DataLayout.x86_64.Relaxes DataLayout.default where
  size := fun _ => rfl
  align := by intro s; cases s <;> decide

/-- The target of a module. -/
structure ModuleTarget where
  targetTriple : String
  dataLayout : String

def ModuleTarget.setTargetTriple (M : ModuleTarget) (T : String) : ModuleTarget :=
  { M with targetTriple := T }

def ModuleTarget.setDataLayout (M : ModuleTarget) (Desc : String) : ModuleTarget :=
  { M with dataLayout := Desc }

def overrideTarget (M : ModuleTarget) : ModuleTarget :=
  let Target := "x86_64-linux-gnu"
  (M.setTargetTriple Target).setDataLayout ""

/-- The type, and all structures inside it, are laid out as before the override. -/
def KeepsLayout (getDataLayout : String → DataLayout) (M : ModuleTarget)
    (T : MemTy ScalarTy) : Prop :=
  ∀ ms, MemTy.Inside ms T →
    (getDataLayout M.dataLayout).SamePlaces (getDataLayout (overrideTarget M).dataLayout) ms

/-! ## Where the two layouts agree -/

/-- An `i64`, or an array of them. -/
def isI64 : MemTy ScalarTy → Bool
  | .scalar s => s = .i64
  | .array _ elem => isI64 elem
  | .struct _ => false

/-- By the default layout, a structure with an `i64` is still aligned to 8 bytes, which takes
another member that is, and each `i64` happens to be at a multiple of 8. -/
structure I64Fits (ms : List (MemTy ScalarTy)) : Prop where
  align : ∀ t ∈ ms, isI64 t = true → 8 ≤ DataLayout.default.abiAlign (.struct ms)
  offsets : ∀ x ∈ ms.zip (DataLayout.default.offsets ms 0), isI64 x.1 = true → 8 ∣ x.2

theorem realigned_iff (t : MemTy ScalarTy) :
    DataLayout.x86_64.Realigned DataLayout.default t ↔ isI64 t = true := by
  induction t with
  | scalar s => cases s <;> simp [Layout.Realigned, isI64, DataLayout.x86_64, DataLayout.default,
      ScalarTy.size]
  | array length elem ih => exact ih
  | struct ms => simp [Layout.Realigned, isI64]

theorem abiAlign_of_isI64 {t : MemTy ScalarTy} (ht : isI64 t = true) :
    DataLayout.x86_64.abiAlign t = 8 := by
  induction t with
  | scalar s =>
    obtain rfl : s = .i64 := by simpa [isI64] using ht
    rfl
  | array length elem ih => exact ih ht
  | struct ms => simp [isI64] at ht

theorem happensToFit_iff {ms : List (MemTy ScalarTy)} :
    DataLayout.x86_64.HappensToFit DataLayout.default ms ↔ I64Fits ms := by
  constructor
  · intro h
    constructor
    · intro t ht hi
      rw [← abiAlign_of_isI64 hi]
      exact h.align t ht ((realigned_iff t).mpr hi)
    · intro x hx hi
      rw [← abiAlign_of_isI64 hi]
      exact h.offsets x hx ((realigned_iff x.1).mpr hi)
  · intro h
    constructor
    · intro t ht hre
      have hi := (realigned_iff t).mp hre
      rw [abiAlign_of_isI64 hi]
      exact h.align t ht hi
    · intro x hx hre
      have hi := (realigned_iff x.1).mp hre
      rw [abiAlign_of_isI64 hi]
      exact h.offsets x hx hi

section Override

variable {getDataLayout : String → DataLayout} {M : ModuleTarget}

theorem keepsLayout_type_iff (hclang : getDataLayout M.dataLayout = .x86_64)
    (hempty : getDataLayout "" = .default) (T : MemTy ScalarTy) :
    KeepsLayout getDataLayout M T ↔ ∀ ms, MemTy.Inside ms T → I64Fits ms := by
  have hoverride : getDataLayout (overrideTarget M).dataLayout = .default := hempty
  simp only [KeepsLayout, hclang, hoverride, ← happensToFit_iff]
  exact Layout.samePlaces_inside_iff x86_64_relaxes_default T

/-- A structure keeps its layout exactly if in it, and in all structures inside it, each `i64`
is where x86-64 wants it. -/
theorem keepsLayout_iff (hclang : getDataLayout M.dataLayout = .x86_64)
    (hempty : getDataLayout "" = .default) (ms : List (MemTy ScalarTy)) :
    KeepsLayout getDataLayout M (.struct ms) ↔
      ∀ ms', MemTy.Inside ms' (.struct ms) → I64Fits ms' :=
  keepsLayout_type_iff hclang hempty (.struct ms)

end Override

/-! ## Instances of wasm2c -/

/-- The members of an instance, after the pointers to the instances it imports from. -/
inductive InstanceMember where
  | u32
  | u64
  | f32
  | f64
  | memory
  | table
  deriving DecidableEq, Repr

/-- `wasm_rt_memory_t`: the data, the pages, their maximum, the size, and `is64`. -/
def wasm_rt_memory_t : List (MemTy ScalarTy) :=
  [.scalar .ptr, .scalar .i64, .scalar .i64, .scalar .i64, .scalar .i8]

/-- `wasm_rt_funcref_table_t`: the data, the maximal size and the size. -/
def wasm_rt_funcref_table_t : List (MemTy ScalarTy) :=
  [.scalar .ptr, .scalar .i32, .scalar .i32]

def InstanceMember.memTy : InstanceMember → MemTy ScalarTy
  | .u32 => .scalar .i32
  | .u64 => .scalar .i64
  | .f32 => .scalar .float
  | .f64 => .scalar .double
  | .memory => .struct wasm_rt_memory_t
  | .table => .struct wasm_rt_funcref_table_t

def instanceMembers (imports : Nat) (members : List InstanceMember) : List (MemTy ScalarTy) :=
  List.replicate imports (.scalar .ptr) ++ members.map InstanceMember.memTy

theorem i64Fits_memory : I64Fits wasm_rt_memory_t := by
  constructor <;> decide

theorem i64Fits_table : I64Fits wasm_rt_funcref_table_t := by
  constructor <;> decide

/-- Memories and tables keep their layouts, so an instance does if its globals fit. -/
theorem instance_inside_iff {imports : Nat} {members : List InstanceMember} :
    (∀ ms, MemTy.Inside ms (.struct (instanceMembers imports members)) → I64Fits ms) ↔
      I64Fits (instanceMembers imports members) := by
  constructor
  · intro h
    exact h _ .self
  · intro hfits ms hms
    cases hms with
    | self => exact hfits
    | member ht hms =>
      rcases List.mem_append.mp ht with ht | ht
      · obtain rfl := List.eq_of_mem_replicate ht
        cases hms
      · obtain ⟨m, _, rfl⟩ := List.mem_map.mp ht
        cases m with
        | memory =>
          rw [hms.eq_of_scalars (by simp [wasm_rt_memory_t])]
          exact i64Fits_memory
        | table =>
          rw [hms.eq_of_scalars (by simp [wasm_rt_funcref_table_t])]
          exact i64Fits_table
        | _ => cases hms

/-- An instance keeps its layout exactly if its `u64` globals are where x86-64 wants them. -/
theorem instance_keepsLayout_iff {getDataLayout : String → DataLayout} {M : ModuleTarget}
    (hclang : getDataLayout M.dataLayout = .x86_64) (hempty : getDataLayout "" = .default)
    (imports : Nat) (members : List InstanceMember) :
    KeepsLayout getDataLayout M (.struct (instanceMembers imports members)) ↔
      I64Fits (instanceMembers imports members) := by
  rw [keepsLayout_type_iff hclang hempty, instance_inside_iff]

/-- Without `u64` globals there is nothing that could be moved. -/
theorem instance_keepsLayout {getDataLayout : String → DataLayout} {M : ModuleTarget}
    (hclang : getDataLayout M.dataLayout = .x86_64) (hempty : getDataLayout "" = .default)
    (imports : Nat) {members : List InstanceMember} (hmembers : .u64 ∉ members) :
    KeepsLayout getDataLayout M (.struct (instanceMembers imports members)) := by
  have hno : ∀ t ∈ instanceMembers imports members, isI64 t = false := by
    intro t ht
    rcases List.mem_append.mp ht with ht | ht
    · obtain rfl := List.eq_of_mem_replicate ht
      rfl
    · obtain ⟨m, hm, rfl⟩ := List.mem_map.mp ht
      cases m with
      | u64 => exact absurd hm hmembers
      | _ => rfl
  rw [instance_keepsLayout_iff hclang hempty]
  constructor
  · intro t ht hi
    simp [hno t ht] at hi
  · intro x hx hi
    simp [hno x.1 (List.of_mem_zip hx).1] at hi

/-! ## A `u64` global after a `u32` one -/

def clangTarget : ModuleTarget where
  targetTriple := "x86_64-unknown-linux-gnu"
  dataLayout := "e-m:e-p270:32:32-p271:32:32-p272:64:64-i64:64-f80:128-n8:16:32:64-S128"

/-- As LLVM reads the two strings. -/
def sampleDataLayout (Desc : String) : DataLayout :=
  if Desc = "" then .default else .x86_64

/-- The second global of the instance moves from byte 16 to byte 12. -/
theorem u64_global_moves : ¬ ∀ (getDataLayout : String → DataLayout) (M : ModuleTarget),
    getDataLayout M.dataLayout = .x86_64 → getDataLayout "" = .default →
      ∀ ms, KeepsLayout getDataLayout M (.struct ms) := by
  intro hall
  have hkeeps := hall sampleDataLayout clangTarget rfl rfl (instanceMembers 1 [.u32, .u64])
  have hoffsets := (hkeeps _ .self).offsets
  have hbefore : DataLayout.x86_64.offsets (instanceMembers 1 [.u32, .u64]) 0 = [0, 8, 16] := by
    decide
  have hafter : DataLayout.default.offsets (instanceMembers 1 [.u32, .u64]) 0 = [0, 8, 12] := by
    decide
  have heq : [0, 8, 16] = [0, 8, 12] := hbefore.symm.trans (hoffsets.trans hafter)
  exact absurd heq (by decide)

theorem keepsLayout_iff_u64 :
    KeepsLayout sampleDataLayout clangTarget (.struct (instanceMembers 1 [.u32, .u64])) ↔
      ∀ ms, MemTy.Inside ms (.struct (instanceMembers 1 [.u32, .u64])) → I64Fits ms :=
  keepsLayout_iff rfl rfl (instanceMembers 1 [.u32, .u64])

end Squanchy
