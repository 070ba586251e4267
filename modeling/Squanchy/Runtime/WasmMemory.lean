import Squanchy.Runtime.LinearMemory

/-!
# What the memory is for

WebAssembly knows a memory as a size and a byte at each address below it. An instruction that
leaves it traps, and addresses do not wrap around. With range checks the helpers serve every
program as this memory would. Without them they do so up to the first load or store that should
trap, which then accesses what is outside of the block.
-/

namespace Squanchy

open Library

/-! ## The memory of WebAssembly -/

structure WasmMemory where
  size : ℕ
  byte : ℕ → UInt8

namespace WasmMemory

/-- All bytes are zero. -/
def zeroed (size : ℕ) : WasmMemory := ⟨size, fun _ => 0⟩

/-- The number that the `n` bytes from `ea` on denote. -/
def number (w : WasmMemory) (ea n : ℕ) : ℕ :=
  ∑ i ∈ Finset.range n, (w.byte (ea + i)).toNat * 256 ^ i

/-- Give new values to the `n` bytes from `ea` on. -/
def update (w : WasmMemory) (ea n : ℕ) (b : ℕ → UInt8) : WasmMemory :=
  { w with byte := fun i => if ea ≤ i ∧ i < ea + n then b (i - ea) else w.byte i }

end WasmMemory

/-- A number of `n` bytes, read with or without a sign, as a number of `k` bytes. -/
def extend (n : ℕ) (signed : Bool) (k x : ℕ) : ℕ :=
  ((if signed then Int.bmod x (256 ^ n) else x) % (256 ^ k : ℕ)).toNat

/-- How many bytes a load reads. -/
def Load.width : Load → ℕ
  | .i32Load8S | .i64Load8S | .i32Load8U | .i64Load8U => 1
  | .i32Load16S | .i64Load16S | .i32Load16U | .i64Load16U => 2
  | .i32Load | .f32Load | .i64Load32S | .i64Load32U => 4
  | .i64Load | .f64Load => 8

/-- Whether what is read has a sign. -/
def Load.signed : Load → Bool
  | .i32Load8S | .i64Load8S | .i32Load16S | .i64Load16S | .i64Load32S => true
  | _ => false

/-- How many bytes a store writes. -/
def Store.width : Store → ℕ
  | .i32Store8 | .i64Store8 => 1
  | .i32Store16 | .i64Store16 => 2
  | .i32Store | .f32Store | .i64Store32 => 4
  | .i64Store | .f64Store => 8

/-- How WebAssembly answers a request. -/
def wasmServe : Server MemoryRequest (Option ℕ) WasmRtTrap WasmMemory
  | .load l base offset, w =>
    let ea := base.toNat + offset.toNat
    if ea + l.width ≤ w.size then
      .ok (some (extend l.width l.signed l.ret.bytes (w.number ea l.width)), w)
    else .error .OOB
  | .store s base offset value, w =>
    let ea := base.toNat + offset.toNat
    if ea + s.width ≤ w.size then
      .ok (none, w.update ea s.width fun i => UInt8.ofNat (value.toNat / 256 ^ i))
    else .error .OOB
  | .fill d val n, w =>
    if d.toNat + n.toNat ≤ w.size then .ok (none, w.update d.toNat n.toNat fun _ => val.toUInt8)
    else .error .OOB
  | .copy d s n, w =>
    if d.toNat + n.toNat ≤ w.size ∧ s.toNat + n.toNat ≤ w.size then
      .ok (none, w.update d.toNat n.toNat fun i => w.byte (s.toNat + i))
    else .error .OOB
  | .init seg d s n, w =>
    if s.toNat + n.toNat ≤ seg.bytes.length ∧ d.toNat + n.toNat ≤ w.size then
      .ok (none, w.update d.toNat n.toNat fun i => seg.bytes.getD (s.toNat + i) 0)
    else .error .OOB

/-! ## The helpers against it -/

/-- The block holds the bytes, and the object has its size. -/
structure LinearMemory.Represents (m : LinearMemory) (w : WasmMemory) : Prop where
  size : m.object.size.toNat = w.size
  block : m.block = (List.range w.size).map w.byte

theorem LinearMemory.represents_allocate (blocks : List Block) (initial_pages max_pages : UInt64)
    (is64 : Bool) : (LinearMemory.allocate blocks initial_pages max_pages is64).Represents
      (.zeroed (initial_pages * pageSize).toNat) where
  size := rfl
  block := replicate_eq_map_range _ _

section Access

variable {m : LinearMemory} {w : WasmMemory}

theorem LinearMemory.Represents.length (h : m.Represents w) : m.block.length = w.size := by
  simp [h.block]

theorem rangeCheck_eq (h : m.Represents w) {offset len : UInt64}
    (hlt : offset.toNat + len.toNat < 2 ^ 64) : m.rangeCheck offset len =
      if offset.toNat + len.toNat ≤ w.size then .ok () else .error (.trap .OOB) := by
  have hsum : (offset + len).toNat = offset.toNat + len.toNat := by
    rw [UInt64.toNat_add, Nat.mod_eq_of_lt hlt]
  have hiff : offset + len > m.object.size ↔ ¬ offset.toNat + len.toNat ≤ w.size := by
    rw [gt_iff_lt, UInt64.lt_iff_toNat_lt, hsum, h.size]
    omega
  unfold LinearMemory.rangeCheck
  by_cases hle : offset.toNat + len.toNat ≤ w.size <;> simp [hiff, hle]

theorem read_eq (h : m.Represents w) (addr : UInt64) (n : ℕ) : m.read addr n =
    if addr.toNat + n ≤ w.size then
      .ok ((List.range n).map fun i => w.byte (addr.toNat + i))
    else .error .outside := by
  unfold LinearMemory.read
  rw [h.length]
  split
  · rename_i hle
    rw [h.block, window_map_range hle]
  · rfl

/-- A write of in-range bytes keeps the representation. -/
theorem write_of_le (h : m.Represents w) (addr : UInt64) {n : ℕ}
    (hle : addr.toNat + n ≤ w.size) (b : ℕ → UInt8) :
    ∃ m', m.write addr ((List.range n).map b) = .ok m' ∧
      m'.Represents (w.update addr.toNat n b) := by
  refine ⟨_, if_pos (by simpa [h.length] using hle), h.size, ?_⟩
  simp only [WasmMemory.update]
  rw [h.block, overwrite_map_range hle]

theorem write_of_not_le (h : m.Represents w) {addr : UInt64} {n : ℕ}
    (hlt : ¬ addr.toNat + n ≤ w.size) (b : ℕ → UInt8) :
    m.write addr ((List.range n).map b) = .error .outside :=
  if_neg (by simpa [h.length] using hlt)

/-- How a load or a store out of range fails. -/
def Memcheck.failure : Memcheck → Stop
  | .guardPages => .outside
  | .boundsCheck => .trap .OOB

theorem toNat_ofNat_bytes {n : ℕ} (hn : n ≤ 8) : (UInt64.ofNat n).toNat = n := by
  rw [UInt64.toNat_ofNat']
  omega

theorem memcheck_of_le (h : m.Represents w) (c : Memcheck) {addr : UInt64} {t : CType}
    (ht : t.bytes ≤ 8) (hle : addr.toNat + t.bytes ≤ w.size) : m.memcheck c addr t = .ok () := by
  cases c with
  | guardPages => rfl
  | boundsCheck =>
    have hlt : w.size < 2 ^ 64 := h.size ▸ m.object.size.toNat_lt
    rw [LinearMemory.memcheck, rangeCheck_eq h (by rw [toNat_ofNat_bytes ht]; omega),
      toNat_ofNat_bytes ht, if_pos hle]

/-- Out of range, either the check fails or what comes after it. -/
theorem memcheck_bind_of_not_le {α : Type} (h : m.Represents w) (c : Memcheck) {addr : UInt64}
    {t : CType} (ht : t.bytes ≤ 8) (haddr : addr.toNat < 2 ^ 33)
    (hgt : ¬ addr.toNat + t.bytes ≤ w.size) {k : Unit → Except Stop α}
    (hk : k () = .error .outside) : (m.memcheck c addr t >>= k) = .error c.failure := by
  cases c with
  | guardPages => exact hk
  | boundsCheck =>
    rw [LinearMemory.memcheck, rangeCheck_eq h (by rw [toNat_ofNat_bytes ht]; omega),
      toNat_ofNat_bytes ht, if_neg hgt]
    rfl

end Access

/-! ## Conversions -/

theorem two_pow_eight_mul (n : ℕ) : 2 ^ (8 * n) = 256 ^ n := by
  rw [pow_mul]
  rfl

theorem toNat_convert (t t' : CType) (x : t.Val) :
    (t.convert t' x).toNat = extend t.bytes t.signed t'.bytes x.toNat := by
  unfold CType.convert extend
  cases t.signed with
  | true =>
    rw [if_pos rfl, if_pos rfl, BitVec.signExtend, BitVec.toNat_ofInt, BitVec.toInt_eq_toNat_bmod,
      two_pow_eight_mul, two_pow_eight_mul]
  | false =>
    simp only [Bool.false_eq_true, if_false, BitVec.toNat_setWidth, two_pow_eight_mul]
    omega

theorem toNat_convert_of_bytes_eq {t t' : CType} (h : t.bytes = t'.bytes) (x : t.Val) :
    (t.convert t' x).toNat = x.toNat := by
  obtain ⟨n, signed⟩ := t
  obtain ⟨n', signed'⟩ := t'
  obtain rfl : n = n' := h
  unfold CType.convert
  split
  · rw [BitVec.signExtend_eq]
  · rw [BitVec.setWidth_eq]

/-! ## Each request -/

theorem Load.call_eq (l : Load) (c : Memcheck) (m : LinearMemory) (addr : UInt64) :
    l.call c m addr =
      defineLoad ⟨l.width, l.signed⟩ ⟨l.ret.bytes, l.signed⟩ l.ret c m addr := by
  cases l <;> rfl

theorem Store.call_eq (s : Store) (c : Memcheck) (m : LinearMemory) (addr : UInt64)
    (value : s.value.Val) :
    s.call c m addr value = defineStore ⟨s.width, false⟩ s.value c m addr value := by
  cases s <;> rfl

theorem Load.width_le (l : Load) : l.width ≤ 8 := by
  cases l <;> decide

theorem Store.width_le (s : Store) : s.width ≤ 8 := by
  cases s <;> decide

theorem Store.value_signed (s : Store) : s.value.signed = false := by
  cases s <;> rfl

theorem toNat_effectiveAddress (base offset : UInt32) :
    (effectiveAddress base offset).toNat = base.toNat + offset.toNat := by
  have hbase := base.toNat_lt
  have hoffset := offset.toNat_lt
  rw [effectiveAddress, UInt64.toNat_add, UInt32.toNat_toUInt64, UInt32.toNat_toUInt64]
  omega

/-! ## A load after a store -/

section Stored

variable {s : Store} {c : Memcheck} {m m' : LinearMemory} {addr : UInt64} {value : s.value.Val}

/-- The bytes of a store are the lowest ones of the value. -/
theorem Store.toBytes_convert (s : Store) (value : s.value.Val) :
    toBytes s.width (s.value.convert ⟨s.width, false⟩ value).toNat =
      toBytes s.width value.toNat := by
  have hwrap : (s.value.convert ⟨s.width, false⟩ value).toNat = value.toNat % 256 ^ s.width := by
    simp [CType.convert, s.value_signed, two_pow_eight_mul]
  rw [hwrap, toBytes_mod]

/-- All that a store does. -/
theorem Store.call_eq_ok (h : s.call c m addr value = .ok m') :
    m.memcheck c addr ⟨s.width, false⟩ = .ok () ∧ addr.toNat + s.width ≤ m.block.length ∧
      m' = { m with block := overwrite m.block addr.toNat (toBytes s.width value.toNat) } := by
  rw [Store.call_eq, defineStore, bind_eq_ok] at h
  obtain ⟨_, hcheck, hwrite⟩ := h
  simp only [s.toBytes_convert, LinearMemory.write, length_toBytes] at hwrite
  split at hwrite
  · rename_i hle
    exact ⟨hcheck, hle, (Except.ok.inj hwrite).symm⟩
  · cases hwrite

/-- A load reads the bytes of a value as that value. -/
theorem Load.call_eq_ok {l : Load} (hcheck : m.memcheck c addr ⟨l.width, l.signed⟩ = .ok ())
    {v : ℕ} (hread : m.read addr l.width = .ok (toBytes l.width v)) :
    ∃ x, l.call c m addr = .ok x ∧
      x.toNat = extend l.width l.signed l.ret.bytes (v % 256 ^ l.width) := by
  refine ⟨_, by simp only [Load.call_eq, defineLoad, hcheck, hread]; rfl, ?_⟩
  have hlast (x : (CType.mk l.ret.bytes l.signed).Val) :
      (CType.convert ⟨l.ret.bytes, l.signed⟩ l.ret x).toNat = x.toNat :=
    toNat_convert_of_bytes_eq rfl x
  rw [hlast, toNat_convert, BitVec.toNat_ofNat, two_pow_eight_mul, ofBytes_toBytes, Nat.mod_mod]

theorem load_same (h : s.call c m addr value = .ok m') {l : Load} (hwidth : l.width = s.width) :
    ∃ x, l.call c m' addr = .ok x ∧
      x.toNat = extend l.width l.signed l.ret.bytes (value.toNat % 256 ^ l.width) := by
  obtain ⟨hcheck, hle, rfl⟩ := Store.call_eq_ok h
  rw [← hwidth] at hcheck hle ⊢
  have hlen : addr.toNat + (toBytes l.width value.toNat).length ≤ m.block.length := by
    simpa using hle
  refine Load.call_eq_ok ?_ ?_
  · cases c <;> exact hcheck
  · have hback := window_overwrite hlen
    rw [length_toBytes] at hback
    rw [LinearMemory.read, length_overwrite hlen, if_pos hle, hback]

theorem load_disjoint (h : s.call c m addr value = .ok m') {l : Load} {addr' : UInt64}
    (hdisjoint : addr'.toNat + l.width ≤ addr.toNat ∨ addr.toNat + s.width ≤ addr'.toNat) :
    l.call c m' addr' = l.call c m addr' := by
  obtain ⟨_, hle, rfl⟩ := Store.call_eq_ok h
  have hlen : addr.toNat + (toBytes s.width value.toNat).length ≤ m.block.length := by
    simpa using hle
  have hread : LinearMemory.read
      { m with block := overwrite m.block addr.toNat (toBytes s.width value.toNat) } addr'
      l.width = m.read addr' l.width := by
    rw [LinearMemory.read, LinearMemory.read, length_overwrite hlen,
      window_overwrite_of_disjoint hlen (by simpa using hdisjoint)]
  simp only [Load.call_eq, defineLoad, hread]
  cases c <;> rfl

/-- After a store that did not trap, whatever the memory is like, a load as wide as the store
returns what was stored, with or without sign; loads elsewhere do not notice. -/
theorem load_after_store (h : s.call c m addr value = .ok m') (l : Load) :
    (l.width = s.width → ∃ x, l.call c m' addr = .ok x ∧
      x.toNat = extend l.width l.signed l.ret.bytes (value.toNat % 256 ^ l.width)) ∧
    ∀ addr' : UInt64,
      addr'.toNat + l.width ≤ addr.toNat ∨ addr.toNat + s.width ≤ addr'.toNat →
        l.call c m' addr' = l.call c m addr' :=
  ⟨load_same h, fun _ => load_disjoint h⟩

end Stored

def eightBytes : LinearMemory := ⟨⟨.block 0, 0, 0, 8, false⟩, List.replicate 8 0⟩

/-- A negative number of 16 bits, and the bytes after it. -/
theorem load_after_store_negative :
    ∃ m', Store.call .i32Store16 .boundsCheck eightBytes 2 0xfedc = .ok m' ∧
      (∃ x, Load.call .i64Load16S .boundsCheck m' 2 = .ok x ∧ x.toNat = 0xfffffffffffffedc) ∧
      Load.call .i32Load .boundsCheck m' 4 = Load.call .i32Load .boundsCheck eightBytes 4 := by
  have hstore : ∃ m', Store.call .i32Store16 .boundsCheck eightBytes 2 0xfedc = .ok m' := ⟨_, rfl⟩
  obtain ⟨m', hm'⟩ := hstore
  obtain ⟨x, hx, hvalue⟩ := (load_after_store hm' .i64Load16S).1 rfl
  refine ⟨m', hm', ⟨x, hx, hvalue.trans (by decide)⟩, ?_⟩
  exact (load_after_store hm' .i32Load).2 4 (.inr (by decide))

/-- How a request out of range fails. -/
def MemoryRequest.failure (c : Memcheck) : MemoryRequest → Stop
  | .load .. | .store .. => c.failure
  | _ => .trap .OOB

section Serve

variable {m : LinearMemory} {w : WasmMemory}

/-- What a helper makes of the memory, against what WebAssembly makes of it. -/
abbrev ServedAlike (r : MemoryRequest) (c : Memcheck)
    (x : Except Stop (Option ℕ × LinearMemory))
    (y : Except WasmRtTrap (Option ℕ × WasmMemory)) : Prop :=
  Matches (fun e t => e = r.failure c ∧ t = .OOB)
    (fun a b => a.1 = b.1 ∧ a.2.Represents b.2) x y

theorem load_refines (h : m.Represents w) (c : Memcheck) (l : Load) (base offset : UInt32) :
    ServedAlike (.load l base offset) c (serve c (.load l base offset) m)
      (wasmServe (.load l base offset) w) := by
  have haddr := toNat_effectiveAddress base offset
  have hbase := base.toNat_lt
  have hoffset := offset.toNat_lt
  simp only [serve, wasmServe, Load.call_eq, defineLoad]
  by_cases hle : base.toNat + offset.toNat + l.width ≤ w.size
  · rw [memcheck_of_le h c l.width_le (by rw [haddr]; exact hle), read_eq h, haddr, if_pos hle,
      if_pos hle]
    have hlast (x : (CType.mk l.ret.bytes l.signed).Val) :
        (CType.convert ⟨l.ret.bytes, l.signed⟩ l.ret x).toNat = x.toNat :=
      toNat_convert_of_bytes_eq rfl x
    have hlt := ofBytes_lt ((List.range l.width).map fun i =>
      w.byte (base.toNat + offset.toNat + i))
    rw [List.length_map, List.length_range] at hlt
    refine .ok ⟨congrArg some ?_, h⟩
    rw [hlast, toNat_convert, BitVec.toNat_ofNat, two_pow_eight_mul, Nat.mod_eq_of_lt hlt,
      ofBytes_map_range, WasmMemory.number]
  · rw [if_neg hle, memcheck_bind_of_not_le h c l.width_le (by omega) (by rw [haddr]; exact hle)]
    · exact .error ⟨rfl, rfl⟩
    · rw [read_eq h, haddr, if_neg hle]
      rfl

theorem store_refines (h : m.Represents w) (c : Memcheck) (s : Store) (base offset : UInt32)
    (value : s.value.Val) : ServedAlike (.store s base offset value) c
      (serve c (.store s base offset value) m) (wasmServe (.store s base offset value) w) := by
  have haddr := toNat_effectiveAddress base offset
  have hbase := base.toNat_lt
  have hoffset := offset.toNat_lt
  simp only [serve, wasmServe, Store.call_eq, defineStore, s.toBytes_convert]
  rw [toBytes]
  by_cases hle : base.toNat + offset.toNat + s.width ≤ w.size
  · obtain ⟨m', hm', hrep⟩ := write_of_le h _ (by rw [haddr]; exact hle)
      (fun i => UInt8.ofNat (value.toNat / 256 ^ i))
    rw [memcheck_of_le h c s.width_le (by rw [haddr]; exact hle), if_pos hle]
    rw [haddr] at hrep
    simp only [bind, Except.bind, hm']
    exact .ok ⟨rfl, hrep⟩
  · rw [if_neg hle, memcheck_bind_of_not_le h c s.width_le (by omega) (by rw [haddr]; exact hle)]
    · exact .error ⟨rfl, rfl⟩
    · exact write_of_not_le h (by rw [haddr]; exact hle) _

/-- A range that 32-bit numbers give is checked exactly. -/
theorem rangeCheck_toUInt64 (h : m.Represents w) (o n : UInt32) :
    m.rangeCheck o.toUInt64 n.toUInt64 =
      if o.toNat + n.toNat ≤ w.size then .ok () else .error (.trap .OOB) := by
  have ho := o.toNat_lt
  have hn := n.toNat_lt
  rw [rangeCheck_eq h (by rw [UInt32.toNat_toUInt64, UInt32.toNat_toUInt64]; omega),
    UInt32.toNat_toUInt64, UInt32.toNat_toUInt64]

theorem fill_refines (h : m.Represents w) (c : Memcheck) (d val n : UInt32) :
    ServedAlike (.fill d val n) c (serve c (.fill d val n) m) (wasmServe (.fill d val n) w) := by
  simp only [serve, wasmServe, memoryFill, rangeCheck_toUInt64 h, replicate_eq_map_range]
  by_cases hle : d.toNat + n.toNat ≤ w.size
  · obtain ⟨m', hm', hrep⟩ := write_of_le h d.toUInt64 hle fun _ => val.toUInt8
    rw [if_pos hle, if_pos hle]
    simp only [bind, Except.bind, hm']
    exact .ok ⟨rfl, hrep⟩
  · rw [if_neg hle, if_neg hle]
    exact .error ⟨rfl, rfl⟩

theorem copy_refines (h : m.Represents w) (c : Memcheck) (d s n : UInt32) :
    ServedAlike (.copy d s n) c (serve c (.copy d s n) m) (wasmServe (.copy d s n) w) := by
  simp only [serve, wasmServe, memoryCopy, rangeCheck_toUInt64 h]
  by_cases hd : d.toNat + n.toNat ≤ w.size
  · by_cases hs : s.toNat + n.toNat ≤ w.size
    · obtain ⟨m', hm', hrep⟩ := write_of_le h d.toUInt64 hd fun i => w.byte (s.toNat + i)
      rw [if_pos hd, if_pos hs, if_pos ⟨hd, hs⟩, read_eq h, UInt32.toNat_toUInt64, if_pos hs]
      simp only [bind, Except.bind, hm']
      exact .ok ⟨rfl, hrep⟩
    · rw [if_pos hd, if_neg hs, if_neg (not_and_of_not_right _ hs)]
      exact .error ⟨rfl, rfl⟩
  · rw [if_neg hd, if_neg (not_and_of_not_left _ hd)]
    exact .error ⟨rfl, rfl⟩

/-- The bytes that a segment has from `s` on, up to `n` of them. -/
theorem take_drop_eq_map_range {bs : List UInt8} {s n : ℕ} (h : s + n ≤ bs.length) :
    (bs.drop s).take n = (List.range n).map fun i => bs.getD (s + i) 0 := by
  apply List.ext_getElem?
  intro i
  by_cases hi : i < n
  · rw [List.getElem?_take_of_lt hi, List.getElem?_drop]
    simp [hi, show s + i < bs.length by omega]
  · simp [hi]

theorem loadData_eq (h : m.Represents w) {o s : UInt32} {i : List UInt8}
    (hi : s.toNat ≤ i.length) : Matches (fun e t => e = .trap .OOB ∧ t = WasmRtTrap.OOB)
      LinearMemory.Represents (loadData m o i s)
      (if o.toNat + s.toNat ≤ w.size then
        .ok (w.update o.toNat s.toNat fun k => i.getD k 0) else .error .OOB) := by
  have hbytes : i.take s.toNat = (List.range s.toNat).map fun k => i.getD k 0 := by
    simpa using take_drop_eq_map_range (s := 0) (by simpa using hi)
  simp only [loadData, rangeCheck_toUInt64 h]
  by_cases hle : o.toNat + s.toNat ≤ w.size
  · rw [if_pos hle, if_pos hle]
    by_cases hs : s = 0
    · subst hs
      refine .ok ⟨h.size, ?_⟩
      rw [h.block]
      refine List.map_congr_left fun k _ => (if_neg ?_).symm
      simp
    · obtain ⟨m', hm', hrep⟩ := write_of_le h o.toUInt64 hle fun k => i.getD k 0
      simp only [bind, Except.bind, if_neg hs, require, if_pos hi, hbytes, hm']
      exact .ok hrep
  · rw [if_neg hle, if_neg hle]
    exact .error ⟨rfl, rfl⟩

/-- Data that fits is loaded. -/
theorem loadData_of_le {m : LinearMemory} {w : WasmMemory} (h : m.Represents w) {o s : UInt32}
    {i : List UInt8} (hi : s.toNat ≤ i.length) (hle : o.toNat + s.toNat ≤ w.size) :
    ∃ m', loadData m o i s = .ok m' ∧
      m'.Represents (w.update o.toNat s.toNat fun k => i.getD k 0) := by
  have hload := loadData_eq h (o := o) hi
  rw [if_pos hle] at hload
  generalize loadData m o i s = x at hload
  obtain ⟨hrep⟩ | ⟨⟩ := hload
  exact ⟨_, rfl, hrep⟩

theorem init_refines (h : m.Represents w) (c : Memcheck) (seg : Segment) (d s n : UInt32) :
    ServedAlike (.init seg d s n) c (serve c (.init seg d s n) m)
      (wasmServe (.init seg d s n) w) := by
  have hs := s.toNat_lt
  have hn := n.toNat_lt
  have hsum : (s.toUInt64 + n.toUInt64).toNat = s.toNat + n.toNat := by
    rw [UInt64.toNat_add, UInt32.toNat_toUInt64, UInt32.toNat_toUInt64]
    omega
  have hcheck : s.toUInt64 + n.toUInt64 > seg.size.toUInt64 ↔
      ¬ s.toNat + n.toNat ≤ seg.bytes.length := by
    rw [gt_iff_lt, UInt64.lt_iff_toNat_lt, hsum, UInt32.toNat_toUInt64, seg.length_bytes]
    omega
  simp only [serve, wasmServe, memoryInit, hcheck]
  by_cases hsrc : s.toNat + n.toNat ≤ seg.bytes.length
  · have hload := loadData_eq h (o := d) (s := n) (i := seg.bytes.drop s.toNat)
      (by rw [List.length_drop]; omega)
    have hgetD (k : ℕ) : (seg.bytes.drop s.toNat).getD k 0 = seg.bytes.getD (s.toNat + k) 0 := by
      simp [List.getD_eq_getElem?_getD]
    simp only [hgetD] at hload
    simp only [hsrc, not_true_eq_false, if_false, true_and]
    by_cases hd : d.toNat + n.toNat ≤ w.size
    · rw [if_pos hd] at hload ⊢
      generalize hx : loadData m d (seg.bytes.drop s.toNat) n = x at hload
      obtain ⟨hrep⟩ | ⟨⟩ := hload
      simp only [bind, Except.bind]
      exact .ok ⟨rfl, hrep⟩
    · rw [if_neg hd] at hload ⊢
      generalize hx : loadData m d (seg.bytes.drop s.toNat) n = x at hload
      obtain ⟨⟩ | ⟨he⟩ := hload
      simp only [bind, Except.bind]
      exact .error he
  · simp only [hsrc, not_false_eq_true, if_true, false_and, if_false]
    exact .error ⟨rfl, rfl⟩

/-- Every request is served as WebAssembly would, whether ranges are checked or not, but for how
it fails. -/
theorem serve_refines (c : Memcheck) : (serve c).Refines wasmServe
    (fun r e t => e = r.failure c ∧ t = .OOB) LinearMemory.Represents := by
  intro r m w h
  cases r with
  | load l base offset => exact load_refines h c l base offset
  | store s base offset value => exact store_refines h c s base offset value
  | fill d val n => exact fill_refines h c d val n
  | copy d s n => exact copy_refines h c d s n
  | init seg d s n => exact init_refines h c seg d s n

end Serve

/-! ## Whole programs -/

/-- No program can tell the helpers from WebAssembly, up to the first access out of range. With
range checks it traps there; without, a load or a store leaves the block instead. -/
theorem session_refines (c : Memcheck) (client : Client MemoryRequest (Option ℕ)) (n : ℕ)
    {m : LinearMemory} {w : WasmMemory} (h : m.Represents w) :
    Session.Related (fun r e t => e = r.failure c ∧ t = .OOB) LinearMemory.Represents
      (Server.session (serve c) client n [] m) (Server.session wasmServe client n [] w) :=
  (serve_refines c).session client n [] h

/-- A number is written, one byte of it read with its sign, and then a byte that is not there. -/
def outOfBlock : List MemoryRequest :=
  [.store .i32Store 0 4 0xfedc, .load .i64Load8S 1 3, .load .i32Load8U 0xffff 1]

theorem session_refines_outOfBlock : Session.Related
    (fun r e t => e = r.failure .guardPages ∧ t = .OOB) LinearMemory.Represents
    (Server.session (serve .guardPages) (.inTurn outOfBlock) 3 [] (.allocate [] 1 1 false))
    (Server.session wasmServe (.inTurn outOfBlock) 3 [] (.zeroed (1 * pageSize).toNat)) :=
  session_refines .guardPages (.inTurn outOfBlock) 3 (LinearMemory.represents_allocate [] 1 1 false)

end Squanchy
