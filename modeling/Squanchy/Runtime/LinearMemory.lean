import Squanchy.Library.Bytes
import Squanchy.Library.Except
import Squanchy.Library.Session
import Squanchy.Runtime.Objects

/-!
# The linear memory

The code that wasm2c generates reads and writes the memory of an instance through helpers. Some
of them always check the range; loads and stores leave it to guard pages on hosts that have
them, which the blocks of the linked runtime do not. The host is little-endian, and the memory
neither shared nor indexed by 64 bits.
-/

namespace Squanchy

open Library

/-! ## C -/

/-- A scalar type: how many bytes a value has, and how it is converted to a wider one. A
floating-point number is its bit pattern here, and is only ever converted to its own type. -/
structure CType where
  bytes : ℕ
  signed : Bool

abbrev CType.Val (t : CType) : Type := BitVec (8 * t.bytes)

def u8 : CType := ⟨1, false⟩
def s8 : CType := ⟨1, true⟩
def u16 : CType := ⟨2, false⟩
def s16 : CType := ⟨2, true⟩
def u32 : CType := ⟨4, false⟩
def s32 : CType := ⟨4, true⟩
def u64 : CType := ⟨8, false⟩
def s64 : CType := ⟨8, true⟩
def f32 : CType := ⟨4, false⟩
def f64 : CType := ⟨8, false⟩

/-- The conversion from `t` to `t'`. -/
def CType.convert (t t' : CType) (x : t.Val) : t'.Val :=
  if t.signed then x.signExtend (8 * t'.bytes) else x.setWidth (8 * t'.bytes)

/-- `MEMCHECK` relies on guard pages, or checks the range. -/
inductive Memcheck where
  | guardPages | boundsCheck
  deriving DecidableEq

/-- A memory object, and the bytes of its block. -/
structure LinearMemory where
  object : RtMemory
  block : List UInt8

namespace LinearMemory

/-- `wasm_rt_allocate_memory`. The block is zeroed. -/
def allocate (blocks : List Block) (initial_pages max_pages : UInt64) (is64 : Bool) :
    LinearMemory :=
  let (object, _) := wasmRtAllocateMemory blocks initial_pages max_pages is64
  { object, block := List.replicate object.size.toNat 0 }

/-- `RANGE_CHECK`. The sum wraps around. -/
def rangeCheck (mem : LinearMemory) (offset len : UInt64) : Except Stop Unit :=
  if offset + len > mem.object.size then .error (.trap .OOB) else .ok ()

/-- `MEMCHECK`. -/
def memcheck (c : Memcheck) (mem : LinearMemory) (a : UInt64) (t : CType) : Except Stop Unit :=
  match c with
  | .guardPages => .ok ()
  | .boundsCheck => mem.rangeCheck a (.ofNat t.bytes)

/-- Copy `n` bytes from `MEM_ADDR`. -/
def read (mem : LinearMemory) (addr : UInt64) (n : ℕ) : Except Stop (List UInt8) :=
  if addr.toNat + n ≤ mem.block.length then .ok (window mem.block addr.toNat n)
  else .error .outside

/-- Copy bytes to `MEM_ADDR`. -/
def write (mem : LinearMemory) (addr : UInt64) (bs : List UInt8) : Except Stop LinearMemory :=
  if addr.toNat + bs.length ≤ mem.block.length then
    .ok { mem with block := overwrite mem.block addr.toNat bs }
  else .error .outside

end LinearMemory

/-! ## Loads and stores -/

/-- `DEFINE_LOAD`. What `force_read` reads has its value already. -/
def defineLoad (t1 t2 t3 : CType) (c : Memcheck) (mem : LinearMemory) (addr : UInt64) :
    Except Stop t3.Val := do
  mem.memcheck c addr t1
  let bytes ← mem.read addr t1.bytes
  let result : t1.Val := BitVec.ofNat _ (ofBytes bytes)
  return t2.convert t3 (t1.convert t2 result)

/-- `DEFINE_STORE`. -/
def defineStore (t1 t2 : CType) (c : Memcheck) (mem : LinearMemory) (addr : UInt64)
    (value : t2.Val) : Except Stop LinearMemory := do
  mem.memcheck c addr t1
  let wrapped := t2.convert t1 value
  mem.write addr (toBytes t1.bytes wrapped.toNat)

def i32Load := defineLoad u32 u32 u32
def i64Load := defineLoad u64 u64 u64
def f32Load := defineLoad f32 f32 f32
def f64Load := defineLoad f64 f64 f64
def i32Load8S := defineLoad s8 s32 u32
def i64Load8S := defineLoad s8 s64 u64
def i32Load8U := defineLoad u8 u32 u32
def i64Load8U := defineLoad u8 u64 u64
def i32Load16S := defineLoad s16 s32 u32
def i64Load16S := defineLoad s16 s64 u64
def i32Load16U := defineLoad u16 u32 u32
def i64Load16U := defineLoad u16 u64 u64
def i64Load32S := defineLoad s32 s64 u64
def i64Load32U := defineLoad u32 u64 u64
def i32Store := defineStore u32 u32
def i64Store := defineStore u64 u64
def f32Store := defineStore f32 f32
def f64Store := defineStore f64 f64
def i32Store8 := defineStore u8 u32
def i32Store16 := defineStore u16 u32
def i64Store8 := defineStore u8 u64
def i64Store16 := defineStore u16 u64
def i64Store32 := defineStore u32 u64

inductive Load where
  | i32Load | i64Load | f32Load | f64Load | i32Load8S | i64Load8S | i32Load8U | i64Load8U
  | i32Load16S | i64Load16S | i32Load16U | i64Load16U | i64Load32S | i64Load32U
  deriving DecidableEq

inductive Store where
  | i32Store | i64Store | f32Store | f64Store | i32Store8 | i32Store16 | i64Store8 | i64Store16
  | i64Store32
  deriving DecidableEq

/-- The type of the result. -/
def Load.ret : Load → CType
  | .i32Load | .i32Load8S | .i32Load8U | .i32Load16S | .i32Load16U => u32
  | .f32Load => f32
  | .f64Load => f64
  | _ => u64

def Load.call : (l : Load) → Memcheck → LinearMemory → UInt64 → Except Stop l.ret.Val
  | .i32Load => Squanchy.i32Load
  | .i64Load => Squanchy.i64Load
  | .f32Load => Squanchy.f32Load
  | .f64Load => Squanchy.f64Load
  | .i32Load8S => Squanchy.i32Load8S
  | .i64Load8S => Squanchy.i64Load8S
  | .i32Load8U => Squanchy.i32Load8U
  | .i64Load8U => Squanchy.i64Load8U
  | .i32Load16S => Squanchy.i32Load16S
  | .i64Load16S => Squanchy.i64Load16S
  | .i32Load16U => Squanchy.i32Load16U
  | .i64Load16U => Squanchy.i64Load16U
  | .i64Load32S => Squanchy.i64Load32S
  | .i64Load32U => Squanchy.i64Load32U

/-- The type of the value that is stored. -/
def Store.value : Store → CType
  | .i32Store | .i32Store8 | .i32Store16 => u32
  | .f32Store => f32
  | .f64Store => f64
  | _ => u64

def Store.call : (s : Store) → Memcheck → LinearMemory → UInt64 → s.value.Val →
    Except Stop LinearMemory
  | .i32Store => Squanchy.i32Store
  | .i64Store => Squanchy.i64Store
  | .f32Store => Squanchy.f32Store
  | .f64Store => Squanchy.f64Store
  | .i32Store8 => Squanchy.i32Store8
  | .i32Store16 => Squanchy.i32Store16
  | .i64Store8 => Squanchy.i64Store8
  | .i64Store16 => Squanchy.i64Store16
  | .i64Store32 => Squanchy.i64Store32

/-! ## Bulk operations -/

def memoryFill (mem : LinearMemory) (d val n : UInt32) : Except Stop LinearMemory := do
  mem.rangeCheck d.toUInt64 n.toUInt64
  mem.write d.toUInt64 (List.replicate n.toNat val.toUInt8)

def memoryCopy (dest src : LinearMemory) (dest_addr src_addr n : UInt32) :
    Except Stop LinearMemory := do
  dest.rangeCheck dest_addr.toUInt64 n.toUInt64
  src.rangeCheck src_addr.toUInt64 n.toUInt64
  let bytes ← src.read src_addr.toUInt64 n.toNat
  dest.write dest_addr.toUInt64 bytes

/-- `LOAD_DATA`, where `i` is what stands at the source from its address on. -/
def loadData (m : LinearMemory) (o : UInt32) (i : List UInt8) (s : UInt32) :
    Except Stop LinearMemory := do
  m.rangeCheck o.toUInt64 s.toUInt64
  if s = 0 then return m
  require .outside (s.toNat ≤ i.length)
  m.write o.toUInt64 (i.take s.toNat)

def memoryInit (dest : LinearMemory) (src : List UInt8) (src_size dest_addr src_addr n : UInt32) :
    Except Stop LinearMemory := do
  if src_addr.toUInt64 + n.toUInt64 > src_size.toUInt64 then .error (.trap .OOB) else .ok ()
  loadData dest dest_addr (src.drop src_addr.toNat) n

/-! ## Requests -/

/-- A data segment of the module. -/
structure Segment where
  bytes : List UInt8
  size : UInt32
  length_bytes : bytes.length = size.toNat

/-- What the generated code asks of its memory. The address of a load or a store is a 32-bit
number of the program and a constant. -/
inductive MemoryRequest where
  | load (l : Load) (base offset : UInt32)
  | store (s : Store) (base offset : UInt32) (value : s.value.Val)
  | fill (d val n : UInt32)
  | copy (d s n : UInt32)
  | init (seg : Segment) (d s n : UInt32)

/-- `(u64)(base) + offset`. -/
def effectiveAddress (base offset : UInt32) : UInt64 := base.toUInt64 + offset.toUInt64

/-- A load answers with a number, everything else with nothing. -/
def serve (c : Memcheck) : Server MemoryRequest (Option ℕ) Stop LinearMemory
  | .load l base offset, m =>
    (fun x => (some x.toNat, m)) <$> l.call c m (effectiveAddress base offset)
  | .store s base offset value, m =>
    (fun m' => (none, m')) <$> s.call c m (effectiveAddress base offset) value
  | .fill d val n, m => (fun m' => (none, m')) <$> memoryFill m d val n
  | .copy d s n, m => (fun m' => (none, m')) <$> memoryCopy m m d s n
  | .init seg d s n, m => (fun m' => (none, m')) <$> memoryInit m seg.bytes seg.size d s n

end Squanchy
