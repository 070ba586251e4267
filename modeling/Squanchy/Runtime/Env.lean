import Mathlib.Data.List.Basic
import Mathlib.Data.List.Forall2
import Mathlib.Data.List.Induction
import Mathlib.Data.Option.Basic
import Squanchy.Library.Starts
import Squanchy.Runtime.Objects

/-!
# The accessors of the environment

`injectInitializer` allocates the environment and leaves it undefined. The import code of the
module then calls one accessor after the other, in the order of its imports. All accessors
but one return a symbol, or a field that they set themselves; `w2c_env_DYNAMICTOP_PTR` returns
a field that only `w2c_env_memory` sets. Two orders of the same calls leave equivalent
environments: the blocks of memory and stack may have other places.
-/

namespace Squanchy

open Library

/-- `w2c_env`, with its undefined fields. -/
structure W2cEnv where
  DYNAMICTOP_PTR : Option Address := none
  memory : Option RtMemory := none
  memoryBase : Option UInt32 := none
  funcref_table : Option RtTable := none
  funcref_tableBase : Option UInt32 := none
  STACKTOP : Option Address := none

/-- The environment, the global `Stack`, and the blocks that exist. -/
structure EnvState where
  env : W2cEnv := {}
  Stack : Option Address := none
  blocks : List Block

/-! ## The accessors -/

def w2cEnvDYNAMICTOP_PTR (s : EnvState) : Option Address × EnvState := (s.env.DYNAMICTOP_PTR, s)

def w2cEnvSTACKTOP (s : EnvState) : Option Address × EnvState :=
  let env := { s.env with STACKTOP := some (.symbol "Stack") }
  (env.STACKTOP, { env, Stack := some (.block s.blocks.length),
                   blocks := s.blocks ++ [.uninitialized 10000] })

def w2cEnvSTACK_MAX (s : EnvState) : Option Address × EnvState := (some (.symbol "STACK_MAX"), s)

def atLeastOnePage (bytes : UInt64) : UInt64 :=
  let pages := bytes / pageSize
  if pages = 0 then 1 else pages

def w2cEnvMemory (limits : Limits) (s : EnvState) : Option Address × EnvState :=
  let initial_pages := atLeastOnePage limits.min_env_memory
  let max_pages := atLeastOnePage limits.max_env_memory
  let (memory, blocks) := wasmRtAllocateMemory s.blocks initial_pages max_pages true
  (some (.field "memory"),
    { s with
      env := { s.env with memory := some memory, DYNAMICTOP_PTR := some (.symbol "DYNAMICTOP_PTR") }
      blocks })

def w2cEnvMemoryBase (s : EnvState) : Option Address × EnvState :=
  (some (.field "memoryBase"), { s with env := { s.env with memoryBase := some 0 } })

def w2cEnvTable (limits : Limits) (s : EnvState) : Option Address × EnvState :=
  (some (.field "funcref_table"),
    { s with env := { s.env with funcref_table := some (w2cEnvTableInit limits) } })

def w2cEnvTableBase (s : EnvState) : Option Address × EnvState :=
  (some (.field "funcref_tableBase"), { s with env := { s.env with funcref_tableBase := some 0 } })

inductive Accessor where
  | DYNAMICTOP_PTR | STACKTOP | STACK_MAX | memory | memoryBase | table | tableBase
  deriving DecidableEq, Repr

/-- The pointer that an accessor returns, if it is defined, and the new state. -/
def Accessor.call (limits : Limits) : Accessor → EnvState → Option Address × EnvState
  | .DYNAMICTOP_PTR => w2cEnvDYNAMICTOP_PTR
  | .STACKTOP => w2cEnvSTACKTOP
  | .STACK_MAX => w2cEnvSTACK_MAX
  | .memory => w2cEnvMemory limits
  | .memoryBase => w2cEnvMemoryBase
  | .table => w2cEnvTable limits
  | .tableBase => w2cEnvTableBase

def Accessor.step (limits : Limits) (a : Accessor) (s : EnvState) : EnvState := (a.call limits s).2

/-! ## Runs -/

/-- The state after the calls, from an environment that is undefined throughout. -/
def afterCalls (limits : Limits) (blocks : List Block) (calls : List Accessor) : EnvState :=
  calls.foldl (fun s a => a.step limits s) { blocks }

/-- The accessors with what they return, in the order of the calls. -/
def results (limits : Limits) (blocks : List Block) (calls : List Accessor) :
    List (Accessor × Option Address) :=
  (starts (Accessor.step limits) calls { blocks }).map fun x => (x.1, (x.1.call limits x.2).1)

/-- What the import of one accessor gets. -/
def resultsOf (limits : Limits) (blocks : List Block) (calls : List Accessor) (a : Accessor) :
    List (Option Address) :=
  ((results limits blocks calls).filter fun x => x.1 = a).map (·.2)

/-! ## Equivalent values -/

/-- The same symbol or field, or blocks that were allocated alike. -/
def Address.Equiv (bs bs' : List Block) : Address → Address → Prop
  | .block m, .block n => bs[m]? = bs'[n]?
  | a, b => a = b

structure RtMemory.Equiv (bs bs' : List Block) (m m' : RtMemory) : Prop where
  data : m.data.Equiv bs bs' m'.data
  pages : m.pages = m'.pages
  max_pages : m.max_pages = m'.max_pages
  size : m.size = m'.size
  is64 : m.is64 = m'.is64

/-- Defined alike, with equivalent values. -/
structure EnvState.Equiv (s s' : EnvState) : Prop where
  DYNAMICTOP_PTR : Option.Rel (Address.Equiv s.blocks s'.blocks) s.env.DYNAMICTOP_PTR
    s'.env.DYNAMICTOP_PTR
  memory : Option.Rel (RtMemory.Equiv s.blocks s'.blocks) s.env.memory s'.env.memory
  memoryBase : s.env.memoryBase = s'.env.memoryBase
  funcref_table : s.env.funcref_table = s'.env.funcref_table
  funcref_tableBase : s.env.funcref_tableBase = s'.env.funcref_tableBase
  STACKTOP : Option.Rel (Address.Equiv s.blocks s'.blocks) s.env.STACKTOP s'.env.STACKTOP
  Stack : Option.Rel (Address.Equiv s.blocks s'.blocks) s.Stack s'.Stack

/-! ## What the calls leave -/

section Reached

variable {limits : Limits} {calls : List Accessor} {s : EnvState}

/-- The memory of the environment, with its block at some place. -/
def envMemory (limits : Limits) (b : Nat) : RtMemory where
  data := .block b
  pages := atLeastOnePage limits.min_env_memory
  max_pages := atLeastOnePage limits.max_env_memory
  size := atLeastOnePage limits.min_env_memory * pageSize
  is64 := true

/-- A field holds what it is set to if the accessor was called. -/
structure Reached (limits : Limits) (calls : List Accessor) (s : EnvState) : Prop where
  DYNAMICTOP_PTR : s.env.DYNAMICTOP_PTR =
    if .memory ∈ calls then some (.symbol "DYNAMICTOP_PTR") else none
  memory : if .memory ∈ calls then ∃ b, s.env.memory = some (envMemory limits b) ∧
      s.blocks[b]? = some (.zeroed (envMemory limits b).size) else s.env.memory = none
  memoryBase : s.env.memoryBase = if .memoryBase ∈ calls then some 0 else none
  funcref_table : s.env.funcref_table = if .table ∈ calls then some (w2cEnvTableInit limits)
    else none
  funcref_tableBase : s.env.funcref_tableBase = if .tableBase ∈ calls then some 0 else none
  STACKTOP : s.env.STACKTOP = if .STACKTOP ∈ calls then some (.symbol "Stack") else none
  Stack : if .STACKTOP ∈ calls then ∃ b, s.Stack = some (.block b) ∧
      s.blocks[b]? = some (.uninitialized 10000) else s.Stack = none

theorem getElem?_append_of_eq_some {bs bs' : List Block} {n : Nat} {b : Block}
    (h : bs[n]? = some b) : (bs ++ bs')[n]? = some b := by
  rw [List.getElem?_append_left (List.getElem?_eq_some_iff.mp h).1, h]

theorem reached_step (h : Reached limits calls s) (a : Accessor) :
    Reached limits (calls ++ [a]) (a.step limits s) := by
  obtain ⟨h₁, h₂, h₃, h₄, h₅, h₆, h₇⟩ := h
  cases a with
  | DYNAMICTOP_PTR => constructor <;> simpa
  | STACK_MAX => constructor <;> simpa
  | memoryBase => constructor <;> simp_all [Accessor.step, Accessor.call, w2cEnvMemoryBase]
  | table => constructor <;> simp_all [Accessor.step, Accessor.call, w2cEnvTable]
  | tableBase => constructor <;> simp_all [Accessor.step, Accessor.call, w2cEnvTableBase]
  | STACKTOP =>
    refine ⟨by simpa, ?_, by simpa, by simpa, by simpa, ?_, ?_⟩
    · simp only [List.mem_append, List.mem_singleton, reduceCtorEq, or_false]
      split
      · rename_i hmem
        rw [if_pos hmem] at h₂
        obtain ⟨b, hb, hblock⟩ := h₂
        exact ⟨b, hb, getElem?_append_of_eq_some hblock⟩
      · rename_i hmem
        rwa [if_neg hmem] at h₂
    · simp [Accessor.step, Accessor.call, w2cEnvSTACKTOP]
    · simp [Accessor.step, Accessor.call, w2cEnvSTACKTOP]
  | memory =>
    refine ⟨?_, ?_, by simpa, by simpa, by simpa, by simpa, ?_⟩
    · simp [Accessor.step, Accessor.call, w2cEnvMemory]
    · simp [Accessor.step, Accessor.call, w2cEnvMemory, wasmRtAllocateMemory, envMemory]
    · simp only [List.mem_append, List.mem_singleton, reduceCtorEq, or_false]
      split
      · rename_i hmem
        rw [if_pos hmem] at h₇
        obtain ⟨b, hb, hblock⟩ := h₇
        exact ⟨b, hb, getElem?_append_of_eq_some hblock⟩
      · rename_i hmem
        rwa [if_neg hmem] at h₇

theorem reached_afterCalls (limits : Limits) (blocks : List Block) (calls : List Accessor) :
    Reached limits calls (afterCalls limits blocks calls) := by
  unfold afterCalls
  induction calls using List.reverseRecOn with
  | nil => constructor <;> simp
  | append_singleton calls a ih =>
    rw [List.foldl_append]
    exact reached_step ih a

/-- What an accessor returns once it is defined. -/
def Accessor.answer : Accessor → Address
  | .DYNAMICTOP_PTR => .symbol "DYNAMICTOP_PTR"
  | .STACKTOP => .symbol "Stack"
  | .STACK_MAX => .symbol "STACK_MAX"
  | .memory => .field "memory"
  | .memoryBase => .field "memoryBase"
  | .table => .field "funcref_table"
  | .tableBase => .field "funcref_tableBase"

/-- Only one accessor depends on the calls before it. -/
theorem call_eq (h : Reached limits calls s) (a : Accessor) : (a.call limits s).1 =
    if a = .DYNAMICTOP_PTR ∧ .memory ∉ calls then none else some a.answer := by
  cases a with
  | DYNAMICTOP_PTR =>
    refine h.DYNAMICTOP_PTR.trans ?_
    by_cases hmem : Accessor.memory ∈ calls <;> simp [hmem, Accessor.answer]
  | _ => rfl

/-- Whatever the order, the same calls leave equivalent environments. -/
theorem equiv_of_perm {calls' : List Accessor} {s' : EnvState} (h : Reached limits calls s)
    (h' : Reached limits calls' s') (hperm : calls.Perm calls') : s.Equiv s' := by
  have hsymbol (bs bs' : List Block) (c : Prop) [Decidable c] (name : String) :
      Option.Rel (Address.Equiv bs bs') (if c then some (.symbol name) else none)
        (if c then some (.symbol name) else none) := by
    split
    · exact .some rfl
    · exact .none
  obtain ⟨h₁, h₂, h₃, h₄, h₅, h₆, h₇⟩ := h
  obtain ⟨h₁', h₂', h₃', h₄', h₅', h₆', h₇'⟩ := h'
  simp only [← hperm.mem_iff] at h₁' h₂' h₃' h₄' h₅' h₆' h₇'
  constructor
  · rw [h₁, h₁']
    exact hsymbol ..
  · by_cases hmem : Accessor.memory ∈ calls
    · rw [if_pos hmem] at h₂ h₂'
      obtain ⟨b, hb, hblock⟩ := h₂
      obtain ⟨b', hb', hblock'⟩ := h₂'
      rw [hb, hb']
      exact .some ⟨hblock.trans hblock'.symm, rfl, rfl, rfl, rfl⟩
    · rw [if_neg hmem] at h₂ h₂'
      rw [h₂, h₂']
      exact .none
  · rw [h₃, h₃']
  · rw [h₄, h₄']
  · rw [h₅, h₅']
  · rw [h₆, h₆']
    exact hsymbol ..
  · by_cases hmem : Accessor.STACKTOP ∈ calls
    · rw [if_pos hmem] at h₇ h₇'
      obtain ⟨b, hb, hblock⟩ := h₇
      obtain ⟨b', hb', hblock'⟩ := h₇'
      rw [hb, hb']
      exact .some (hblock.trans hblock'.symm)
    · rw [if_neg hmem] at h₇ h₇'
      rw [h₇, h₇']
      exact .none

end Reached

/-! ## Orders of calls -/

section Orders

variable {limits : Limits} {blocks : List Block} {calls : List Accessor}

/-- The memory is imported before each use of the pointer that only it sets. -/
def MemoryFirst (calls : List Accessor) : Prop :=
  ∀ pre post, calls = pre ++ .DYNAMICTOP_PTR :: post → .memory ∈ pre

/-- Each call returns a defined pointer. -/
def AllDefined (limits : Limits) (blocks : List Block) (calls : List Accessor) : Prop :=
  ∀ x ∈ results limits blocks calls, x.2.isSome = true

/-- What a call returns depends on the calls before it. -/
theorem mem_results {x : Accessor × Option Address} : x ∈ results limits blocks calls ↔
    ∃ pre post, calls = pre ++ x.1 :: post ∧
      x.2 = if x.1 = .DYNAMICTOP_PTR ∧ .memory ∉ pre then none else some x.1.answer := by
  obtain ⟨a, r⟩ := x
  simp only [results, List.mem_map, mem_starts]
  constructor
  · rintro ⟨⟨a', s⟩, ⟨pre, post, hcalls, rfl⟩, hx⟩
    obtain ⟨rfl, rfl⟩ := Prod.mk.inj hx
    exact ⟨pre, post, hcalls, call_eq (reached_afterCalls limits blocks pre) a'⟩
  · rintro ⟨pre, post, hcalls, rfl⟩
    exact ⟨(a, afterCalls limits blocks pre), ⟨pre, post, hcalls, rfl⟩,
      Prod.ext rfl (call_eq (reached_afterCalls limits blocks pre) a)⟩

theorem results_eq_answer (h : MemoryFirst calls) {x : Accessor × Option Address}
    (hx : x ∈ results limits blocks calls) : x.2 = some x.1.answer := by
  obtain ⟨pre, post, hcalls, hx₂⟩ := mem_results.mp hx
  rw [hx₂, if_neg]
  rintro ⟨hptr, hmem⟩
  exact hmem (h pre post (hptr ▸ hcalls))

theorem allDefined_iff : AllDefined limits blocks calls ↔ MemoryFirst calls := by
  constructor
  · intro h pre post hcalls
    by_contra hmem
    have hx : (Accessor.DYNAMICTOP_PTR, none) ∈ results limits blocks calls :=
      mem_results.mpr ⟨pre, post, hcalls, by simp [hmem]⟩
    exact absurd (h _ hx) (by simp)
  · intro h x hx
    rw [results_eq_answer h hx]
    rfl

theorem map_fst_results (limits : Limits) (blocks : List Block) (calls : List Accessor) :
    (results limits blocks calls).map (·.1) = calls := by
  rw [results, List.map_map]
  exact map_fst_starts _ calls _

/-- With the memory first, every import gets the same at each of its calls. -/
theorem resultsOf_eq_replicate (h : MemoryFirst calls) (a : Accessor) :
    resultsOf limits blocks calls a = List.replicate (calls.count a) (some a.answer) := by
  rw [List.eq_replicate_iff]
  constructor
  · rw [resultsOf, List.length_map, ← List.countP_eq_length_filter]
    conv_rhs => rw [← map_fst_results limits blocks calls]
    rw [List.count, List.countP_map]
    apply List.countP_congr
    intro x _
    simp
  · simp only [resultsOf, List.mem_map, List.mem_filter, decide_eq_true_eq]
    rintro r ⟨x, ⟨hx, rfl⟩, rfl⟩
    exact results_eq_answer h hx

/-- Whatever the order of the calls, everything is defined, and equivalent. -/
structure SameForBoth (limits : Limits) (blocks : List Block) (calls₁ calls₂ : List Accessor) :
    Prop where
  defined₁ : AllDefined limits blocks calls₁
  defined₂ : AllDefined limits blocks calls₂
  resultsOf : ∀ a, List.Forall₂
    (Option.Rel (Address.Equiv (afterCalls limits blocks calls₁).blocks
      (afterCalls limits blocks calls₂).blocks))
    (resultsOf limits blocks calls₁ a) (resultsOf limits blocks calls₂ a)
  after : (afterCalls limits blocks calls₁).Equiv (afterCalls limits blocks calls₂)

theorem Address.equiv_answer (bs bs' : List Block) (a : Accessor) :
    a.answer.Equiv bs bs' a.answer := by
  cases a <;> rfl

end Orders

/-- Two orders of the same calls give defined and equivalent results if and only if both import
the memory before each use of `w2c_env_DYNAMICTOP_PTR`. -/
theorem sameForBoth_iff {limits : Limits} {blocks : List Block} {calls₁ calls₂ : List Accessor}
    (hperm : calls₁.Perm calls₂) :
    SameForBoth limits blocks calls₁ calls₂ ↔ MemoryFirst calls₁ ∧ MemoryFirst calls₂ := by
  constructor
  · intro h
    exact ⟨allDefined_iff.mp h.defined₁, allDefined_iff.mp h.defined₂⟩
  · rintro ⟨h₁, h₂⟩
    refine ⟨allDefined_iff.mpr h₁, allDefined_iff.mpr h₂, fun a => ?_,
      equiv_of_perm (reached_afterCalls limits blocks calls₁)
        (reached_afterCalls limits blocks calls₂) hperm⟩
    rw [resultsOf_eq_replicate h₁, resultsOf_eq_replicate h₂, hperm.count_eq]
    apply List.forall₂_same.mpr
    intro r hr
    rw [List.eq_of_mem_replicate hr]
    exact .some (Address.equiv_answer _ _ a)

/-! ## The pointer before the memory -/

/-- The order of the imports has no effect. -/
def OrderIndependent : Prop :=
  ∀ limits blocks calls₁ calls₂, calls₁.Perm calls₂ → SameForBoth limits blocks calls₁ calls₂

/-- The pointer is imported first, and the import gets an undefined value. -/
theorem pointer_before_memory_is_undefined : ¬ OrderIndependent := by
  intro hall
  have hsame := hall exampleLimits [] [.DYNAMICTOP_PTR, .memory] [.memory, .DYNAMICTOP_PTR]
    (by decide)
  exact absurd (hsame.defined₁ (.DYNAMICTOP_PTR, none) (by decide +kernel)) (by decide)

theorem sameForBoth_iff_threeImports :
    SameForBoth exampleLimits [] [.memory, .DYNAMICTOP_PTR, .table] [.table, .memory,
      .DYNAMICTOP_PTR] ↔
    MemoryFirst [.memory, .DYNAMICTOP_PTR, .table] ∧
      MemoryFirst [.table, .memory, .DYNAMICTOP_PTR] :=
  sameForBoth_iff (by decide)

/-! ## The size of the memory -/

theorem toNat_atLeastOnePage (n : UInt64) :
    (atLeastOnePage n).toNat = max 1 (n.toNat / 65536) := by
  have hdiv : (n / pageSize).toNat = n.toNat / 65536 := UInt64.toNat_div n pageSize
  simp only [atLeastOnePage]
  split
  · next hzero =>
    have hz : n.toNat / 65536 = 0 := by rw [← hdiv, hzero]; rfl
    rw [hz]
    rfl
  · next hpos =>
    have hp : n.toNat / 65536 ≠ 0 := by
      rw [← hdiv]
      exact fun h => hpos (UInt64.toNat_inj.mp h)
    rw [hdiv]
    omega

/-- The size of the block is exact, for whatever the module declares. -/
theorem toNat_atLeastOnePage_mul (n : UInt64) :
    (atLeastOnePage n * pageSize).toNat = (atLeastOnePage n).toNat * 65536 := by
  have hlt : n.toNat < UInt64.size := n.toNat_lt_size
  have hsize : UInt64.size = 18446744073709551616 := rfl
  have hmul : (atLeastOnePage n * pageSize).toNat =
      (atLeastOnePage n).toNat * 65536 % UInt64.size := UInt64.toNat_mul _ _
  rw [hmul]
  apply Nat.mod_eq_of_lt
  rw [toNat_atLeastOnePage]
  omega

/-- The memory is as large as the module declares, in pages, and indexed as it declares. -/
structure RtMemory.AsDeclared (limits : Limits) (is64_env_memory : UInt8) (blocks : List Block)
    (m : RtMemory) : Prop where
  enough : limits.min_env_memory ≤ m.pages
  notTooMany : m.pages ≤ m.max_pages
  size : m.size.toNat = m.pages.toNat * 65536
  data : ∃ b, m.data = .block b ∧ blocks[b]? = some (.zeroed m.size)
  is64 : m.is64 = decide (is64_env_memory ≠ 0)
  /-- What the module may access lies inside the block. -/
  inside : ∀ a, a < limits.min_env_memory.toNat * 65536 → a < m.size.toNat

/-- What `w2c_env_memory` sets up is as large as declared. -/
def MemoryAsDeclared (limits : Limits) (is64_env_memory : UInt8) (s : EnvState) : Prop :=
  ∃ m, (w2cEnvMemory limits s).2.env.memory = some m ∧
    m.AsDeclared limits is64_env_memory (w2cEnvMemory limits s).2.blocks

/-- `w2c_env_memory` divides the page count by the size of a page, so it sets up the memory
that is declared only if one page is enough; and only 64-bit memories are marked right. -/
theorem memoryAsDeclared_iff {limits : Limits}
    (hle : limits.min_env_memory ≤ limits.max_env_memory) (is64_env_memory : UInt8)
    (s : EnvState) : MemoryAsDeclared limits is64_env_memory s ↔
      limits.min_env_memory ≤ 1 ∧ is64_env_memory ≠ 0 := by
  have hmin : (atLeastOnePage limits.min_env_memory).toNat =
    max 1 (limits.min_env_memory.toNat / 65536) := toNat_atLeastOnePage _
  have hmax : (atLeastOnePage limits.max_env_memory).toNat =
    max 1 (limits.max_env_memory.toNat / 65536) := toNat_atLeastOnePage _
  have hone : limits.min_env_memory ≤ 1 ↔ limits.min_env_memory.toNat ≤ 1 := Iff.rfl
  constructor
  · rintro ⟨m, hm, h⟩
    obtain rfl := Option.some.inj hm
    have henough : limits.min_env_memory.toNat ≤
      (atLeastOnePage limits.min_env_memory).toNat := h.enough
    have his64 : true = decide (is64_env_memory ≠ 0) := h.is64
    exact ⟨hone.mpr (by omega), of_decide_eq_true his64.symm⟩
  · rintro ⟨hsmall, h64⟩
    rw [hone] at hsmall
    have hpages : (atLeastOnePage limits.min_env_memory).toNat = 1 := by omega
    have hbytes : (atLeastOnePage limits.min_env_memory * pageSize).toNat = 65536 := by
      rw [toNat_atLeastOnePage_mul, hpages]
    have henough : limits.min_env_memory.toNat ≤
        (atLeastOnePage limits.min_env_memory).toNat := by omega
    have hdiv : limits.min_env_memory.toNat / 65536 ≤ limits.max_env_memory.toNat / 65536 :=
      Nat.div_le_div_right (UInt64.le_iff_toNat_le.mp hle)
    have hnotTooMany : (atLeastOnePage limits.min_env_memory).toNat ≤
        (atLeastOnePage limits.max_env_memory).toNat := by omega
    refine ⟨_, rfl, UInt64.le_iff_toNat_le.mpr henough, UInt64.le_iff_toNat_le.mpr hnotTooMany,
      toNat_atLeastOnePage_mul _, ⟨s.blocks.length, rfl, ?_⟩, ?_, ?_⟩
    · simp [w2cEnvMemory, wasmRtAllocateMemory]
    · exact (decide_eq_true h64).symm
    · intro a ha
      exact hbytes ▸ (by omega)

theorem memoryAsDeclared_iff_onePage :
    MemoryAsDeclared ⟨1, 1, 6, 6⟩ 1 { blocks := [] } ↔ (1 : UInt64) ≤ 1 ∧ (1 : UInt8) ≠ 0 :=
  memoryAsDeclared_iff (by decide) 1 _

/-- The constants of the runtime's own example: 4096 pages are declared, and one is set up. -/
theorem example_memory_is_one_page : ¬ ∀ limits is64_env_memory s,
    limits.min_env_memory ≤ limits.max_env_memory →
    limits.min_env_memory.toNat * 65536 < UInt64.size →
    MemoryAsDeclared limits is64_env_memory s := by
  intro hall
  obtain ⟨m, hm, h⟩ := hall exampleLimits 0 { blocks := [] } (by decide) (by decide)
  obtain rfl := Option.some.inj hm
  exact absurd h.enough (by decide +kernel)

end Squanchy
