import Squanchy.Runtime.WasmMemory
import Squanchy.Runtime.WasmTables

/-!
# Instances of the sample

`wasm2c_squanchy_instantiate` is what a deobfuscated function calls first. It makes an instance
out of whatever is there: it sets the globals, allocates the table and the memory, and fills in
the segments of the module. Nothing in it can trap, and what it leaves is the instance that
WebAssembly starts with, but for the table elements that no segment is for.
-/

namespace Squanchy

open Library

/-- The data segments of the module, and the addresses of its functions and types. -/
structure SquanchyModule where
  d0 : List UInt8
  d1 : List UInt8
  length_d0 : d0.length = 2788
  length_d1 : d1.length = 148
  address : String → ℕ

/-- `w2c_squanchy`, with its memory. Its table is one of those of the process. -/
structure SquanchyInstance where
  w2c_env_instance : ℕ
  w2c_wasi__snapshot__preview1_instance : ℕ
  w2c_g0 : UInt32
  w2c_g1 : UInt32
  w2c_g2 : UInt32
  w2c_g3 : UInt32
  w2c_memory : LinearMemory

/-! ## The initializer -/

def initInstanceImport (I : SquanchyInstance) (env wasi : ℕ) : SquanchyInstance :=
  { I with w2c_env_instance := env, w2c_wasi__snapshot__preview1_instance := wasi }

def initGlobals (I : SquanchyInstance) : SquanchyInstance :=
  { I with w2c_g0 := 65536, w2c_g1 := 0, w2c_g2 := 0, w2c_g3 := 0 }

def initMemories (X : SquanchyModule) (blocks : List Block) : Except Stop LinearMemory := do
  let m := LinearMemory.allocate blocks 258 258 false
  let m ← loadData m 65536 X.d0 2788
  loadData m 68328 X.d1 148

namespace SquanchyModule

variable (X : SquanchyModule)

def refFunc (type func : String) : ElemSegmentExpr :=
  ⟨.RefFunc, X.address type, X.address func, 0, 0⟩

/-- `elem_segment_exprs_w2c_squanchy_e0`. -/
def e0 : ElemSegment where
  exprs := [X.refFunc "w2c_squanchy_t2" "w2c_squanchy_f7",
    X.refFunc "w2c_squanchy_t0" "w2c_squanchy_f6", X.refFunc "w2c_squanchy_t6" "w2c_squanchy_f8",
    X.refFunc "w2c_squanchy_t9" "w2c_squanchy_f33",
    X.refFunc "w2c_squanchy_t10" "w2c_squanchy_f34"]
  size := 5
  length_exprs := rfl

end SquanchyModule

def initTables (P : Statics) (X : SquanchyModule) (table : TableId) (address : ℕ)
    (s : TableState) : Except Stop TableState :=
  (s.setTable .funcref table (wasmRtAllocateFuncrefTable 6 6)).funcrefTableInit P table
    X.e0.exprs X.e0.size 1 0 5 address

/-- `wasm2c_squanchy_instantiate`, for the instance at `address`. What the generated code has for
passive segments does nothing. -/
def wasm2cSquanchyInstantiate (P : Statics) (X : SquanchyModule) (table : TableId)
    (address env wasi : ℕ) (blocks : List Block) (I : SquanchyInstance) (s : TableState) :
    Except Stop (SquanchyInstance × TableState) := do
  let I := initGlobals (initInstanceImport I env wasi)
  let s ← initTables P X table address s
  let memory ← initMemories X blocks
  return ({ I with w2c_memory := memory }, s)

/-! ## What WebAssembly starts with -/

namespace SquanchyModule

variable (X : SquanchyModule)

/-- Zeros, and the data segments. -/
def memory : WasmMemory :=
  ((WasmMemory.zeroed (258 * 65536)).update 65536 2788 fun i => X.d0.getD i 0).update 68328 148
    fun i => X.d1.getD i 0

/-- A table of six elements, of which the segment is for the last five. -/
def tables (P : Statics) (table : TableId) (address : ℕ) (w : WasmTables) : WasmTables :=
  (w.setSize .funcref table 6).update .funcref 1 5 fun i =>
    ((X.e0.exprs[i]?).map (·.value P address)).getD RefKind.funcref.null

end SquanchyModule

/-! ## The initializer against it -/

theorem initMemories_represents (X : SquanchyModule) (blocks : List Block) :
    ∃ m, initMemories X blocks = .ok m ∧ m.Represents X.memory := by
  have hzero := LinearMemory.represents_allocate blocks 258 258 false
  obtain ⟨m₁, hm₁, h₁⟩ := loadData_of_le (o := 65536) (s := 2788) hzero X.length_d0.ge (by decide)
  obtain ⟨m₂, hm₂, h₂⟩ := loadData_of_le (o := 68328) (s := 148) h₁ X.length_d1.ge
    (show 68328 + 148 ≤ (258 * pageSize).toNat by decide)
  exact ⟨m₂, by simp only [initMemories, hm₁, bind, Except.bind, hm₂], h₂⟩

theorem initTables_represents (P : Statics) (X : SquanchyModule) (table : TableId) (address : ℕ)
    {s : TableState} {w : WasmTables} (h : s.Represents w) :
    ∃ s', initTables P X table address s = .ok s' ∧
      s'.Represents (X.tables P table address w) := by
  have hset := represents_setTable h (k := .funcref) table
    (T := wasmRtAllocateFuncrefTable 6 6) rfl
  have hinit := funcrefTableInit_refines P hset table X.e0 1 0 5 address
  have hfits : (w.setSize .funcref table 6).init P table X.e0 1 0 5 address =
      .ok (X.tables P table address w) := by
    have hsize : (w.setSize .funcref table 6).size .funcref table = some 6 := by
      simp [WasmTables.setSize]
    simp only [WasmTables.init, hsize, SquanchyModule.tables, Nat.zero_add]
    rfl
  unfold initTables
  generalize TableState.funcrefTableInit _ _ _ _ _ _ _ _ _ = x at hinit ⊢
  change Matches Eq TableState.Represents x
    ((w.setSize .funcref table 6).init P table X.e0 1 0 5 address) at hinit
  rw [hfits] at hinit
  obtain ⟨hrep⟩ | ⟨⟩ := hinit
  exact ⟨_, rfl, hrep⟩

/-- Whatever there was before, the initializer returns, and no program can tell the memory from
the one that WebAssembly starts with. In the table, the elements of the segment are the functions
of the module, with this instance, and all others are as they were. -/
theorem instantiate_starts (P : Statics) (X : SquanchyModule) (table : TableId)
    (address env wasi : ℕ) (blocks : List Block) (I : SquanchyInstance) {s : TableState}
    {w : WasmTables} (h : s.Represents w) :
    ∃ memory s', wasm2cSquanchyInstantiate P X table address env wasi blocks I s =
        .ok (⟨env, wasi, 65536, 0, 0, 0, memory⟩, s') ∧
      (∀ (c : Memcheck) (client : Client MemoryRequest (Option ℕ)) n,
        Session.Related (fun r e t => e = r.failure c ∧ t = .OOB) LinearMemory.Represents
          (Server.session (serve c) client n [] memory)
          (Server.session wasmServe client n [] X.memory)) ∧
      s'.Represents (X.tables P table address w) := by
  obtain ⟨s', hs', hrep⟩ := initTables_represents P X table address h
  obtain ⟨m, hm, hmrep⟩ := initMemories_represents X blocks
  refine ⟨m, s', ?_, fun c client n => (serve_refines c).session client n [] hmrep, hrep⟩
  simp only [wasm2cSquanchyInstantiate, hs', hm, bind, Except.bind]
  rfl

/-- Segments of zeros, and addresses by the lengths of names. -/
def blankModule : SquanchyModule :=
  ⟨List.replicate 2788 0, List.replicate 148 0, List.length_replicate, List.length_replicate,
    String.length⟩

/-- Nothing is set. -/
def garbage : SquanchyInstance := ⟨1, 2, 3, 4, 5, 6, .allocate [] 0 0 false⟩

theorem instantiate_starts_blank :
    ∃ memory s', wasm2cSquanchyInstantiate plainStatics blankModule (.object 0) 16 0 0 [] garbage
      (.start nullStorage) = .ok (⟨0, 0, 65536, 0, 0, 0, memory⟩, s') := by
  obtain ⟨memory, s', hrun, _⟩ := instantiate_starts plainStatics blankModule (.object 0) 16 0 0
    [] garbage (represents_start nullStorage)
  exact ⟨memory, s', hrun⟩

end Squanchy
