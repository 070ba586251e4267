/-!
# Memories and tables of the wasm runtime

The runtime that is linked into each module replaces that of wasm2c. A memory gets a block of
its own; a table gets the address of an external symbol, one for all tables of its kind.
Pointers are symbols, fields of a structure, or blocks, and blocks are numbered in the order
in which they are allocated. An allocation succeeds, and `calloc` fills its block with zeros.
-/

namespace Squanchy

inductive Address where
  | symbol (name : String)
  | field (name : String)
  | block (n : Nat)
  deriving DecidableEq, Repr

def pageSize : UInt64 := 65536

/-- The reasons to trap that occur below, of `wasm_rt_trap_t`. -/
inductive WasmRtTrap where
  | OOB | INT_OVERFLOW | DIV_BY_ZERO | CALL_INDIRECT
  deriving DecidableEq, Repr

/-- A helper that does not return has trapped, or has done what C leaves undefined. -/
inductive Stop where
  | trap (t : WasmRtTrap)
  | outside
  deriving DecidableEq, Repr

/-- The constants that wasm2c generates for the imported memory and table. -/
structure Limits where
  min_env_memory : UInt64
  max_env_memory : UInt64
  min_env_table : UInt32
  max_env_table : UInt32

/-- The example that the runtime gives for these constants. -/
def exampleLimits : Limits := ⟨4096, 4096, 6, 6⟩

/-! ## Memories -/

/-- `wasm_rt_memory_t`. -/
structure RtMemory where
  data : Address
  pages : UInt64
  max_pages : UInt64
  size : UInt64
  is64 : Bool
  deriving DecidableEq

/-- A block of the heap or of the stack. -/
inductive Block where
  | zeroed (size : UInt64)
  | uninitialized (size : UInt64)
  deriving DecidableEq

/-- `wasm_rt_allocate_memory`, with the blocks that exist. -/
def wasmRtAllocateMemory (blocks : List Block) (initial_pages max_pages : UInt64) (is64 : Bool) :
    RtMemory × List Block :=
  let size := initial_pages * pageSize
  ({ data := .block blocks.length, pages := initial_pages, max_pages, size, is64 },
    blocks ++ [.zeroed size])

/-! ## Tables -/

/-- `wasm_rt_funcref_table_t` and `wasm_rt_externref_table_t`. -/
structure RtTable where
  data : Address
  max_size : UInt32
  size : UInt32
  deriving DecidableEq

/-- The body of both allocation functions. -/
def wasmRtAllocateTable (data : String) (elements max_elements : UInt32) : RtTable :=
  { data := .symbol data, max_size := max_elements, size := elements }

def wasmRtAllocateFuncrefTable : UInt32 → UInt32 → RtTable := wasmRtAllocateTable "FUNCREF_TABLE"

def wasmRtAllocateExternrefTable : UInt32 → UInt32 → RtTable :=
  wasmRtAllocateTable "EXTERNREF_TABLE"

/-- What `w2c_env_table` makes of the table of its environment. -/
def w2cEnvTableInit (limits : Limits) : RtTable :=
  wasmRtAllocateFuncrefTable limits.min_env_table limits.max_env_table

end Squanchy
