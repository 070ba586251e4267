import Mathlib.Data.List.Basic

/-!
# Structures in memory

A data layout gives the scalars their sizes and alignments. The members of a structure follow
each other, each at the next address that its alignment allows, and the structure is as
aligned as the strictest member. Two layouts that differ only in some alignments need not
place the members alike; below is when they do.
-/

namespace Squanchy.Library

/-- The next multiple of `a`. -/
def alignTo (n a : Nat) : Nat := (n + a - 1) / a * a

theorem dvd_alignTo (n a : Nat) : a ∣ alignTo n a := Nat.dvd_mul_left _ _

theorem le_alignTo {a : Nat} (ha : 0 < a) (n : Nat) : n ≤ alignTo n a := by
  have hdiv := Nat.div_add_mod (n + a - 1) a
  have hmod := Nat.mod_lt (n + a - 1) ha
  rw [Nat.mul_comm] at hdiv
  unfold alignTo
  omega

theorem alignTo_le {a m n : Nat} (ha : 0 < a) (hm : a ∣ m) (hn : n ≤ m) : alignTo n a ≤ m := by
  obtain ⟨k, rfl⟩ := hm
  have hdiv : (n + a - 1) / a ≤ k := by
    rw [← Nat.lt_succ_iff, Nat.div_lt_iff_lt_mul ha, Nat.succ_mul, Nat.mul_comm]
    omega
  rw [alignTo, Nat.mul_comm a k]
  exact Nat.mul_le_mul_right a hdiv

theorem alignTo_eq_self {a n : Nat} (ha : 0 < a) (hn : a ∣ n) : alignTo n a = n :=
  Nat.le_antisymm (alignTo_le ha hn (Nat.le_refl n)) (le_alignTo ha n)

/-- A stricter alignment makes no difference exactly where the other one happens to meet it. -/
theorem alignTo_eq_alignTo_iff {a b n : Nat} (ha : 0 < a) (hb : 0 < b) (hba : b ∣ a) :
    alignTo n a = alignTo n b ↔ a ∣ alignTo n b := by
  constructor
  · intro heq
    rw [← heq]
    exact dvd_alignTo n a
  · intro hdvd
    apply Nat.le_antisymm
    · exact alignTo_le ha hdvd (le_alignTo hb n)
    · exact alignTo_le hb (Nat.dvd_trans hba (dvd_alignTo n a)) (le_alignTo ha n)

/-! ## Types and layouts -/

inductive MemTy (σ : Type*) where
  | scalar (s : σ)
  | array (length : Nat) (elem : MemTy σ)
  | struct (members : List (MemTy σ))

/-- Induction over the members of structures. -/
@[elab_as_elim, induction_eliminator]
theorem MemTy.induct {σ : Type*} {motive : MemTy σ → Prop}
    (scalar : ∀ s, motive (.scalar s))
    (array : ∀ length elem, motive elem → motive (.array length elem))
    (struct : ∀ members, (∀ t ∈ members, motive t) → motive (.struct members)) :
    ∀ t, motive t
  | .scalar s => scalar s
  | .array length elem => array length elem (MemTy.induct scalar array struct elem)
  | .struct members => struct members fun t _ => MemTy.induct scalar array struct t

structure Layout (σ : Type*) where
  size : σ → Nat
  align : σ → Nat
  align_pos : ∀ s, 0 < align s
  align_dvd_size : ∀ s, align s ∣ size s

namespace Layout

variable {σ : Type*} (D : Layout σ)

mutual

def abiAlign : MemTy σ → Nat
  | .scalar s => D.align s
  | .array _ elem => abiAlign elem
  | .struct members => maxAlign members

/-- The strictest alignment of the members, or 1 if there are none. -/
def maxAlign : List (MemTy σ) → Nat
  | [] => 1
  | t :: ts => max (abiAlign t) (maxAlign ts)

end

mutual

/-- The size of a value, before it is rounded up to its alignment. -/
def storeSize : MemTy σ → Nat
  | .scalar s => D.size s
  | .array length elem => length * alignTo (storeSize elem) (D.abiAlign elem)
  | .struct members => alignTo (endOffset members 0) (D.maxAlign members)

/-- Where the members end that begin at an offset. -/
def endOffset : List (MemTy σ) → Nat → Nat
  | [], offset => offset
  | t :: ts, offset =>
    endOffset ts (alignTo offset (D.abiAlign t) + alignTo (storeSize t) (D.abiAlign t))

end

def allocSize (t : MemTy σ) : Nat := alignTo (D.storeSize t) (D.abiAlign t)

/-- The offsets of the members. -/
def offsets : List (MemTy σ) → Nat → List Nat
  | [], _ => []
  | t :: ts, offset =>
    alignTo offset (D.abiAlign t) :: offsets ts (alignTo offset (D.abiAlign t) + D.allocSize t)

variable {D}

theorem abiAlign_pos (t : MemTy σ) : 0 < D.abiAlign t := by
  induction t with
  | scalar s => exact D.align_pos s
  | array length elem ih => exact ih
  | struct members ih =>
    cases members with
    | nil => simp [abiAlign, maxAlign]
    | cons t ts => exact Nat.lt_of_lt_of_le (ih t List.mem_cons_self) (Nat.le_max_left _ _)

theorem abiAlign_dvd_storeSize (t : MemTy σ) : D.abiAlign t ∣ D.storeSize t := by
  cases t with
  | scalar s => exact D.align_dvd_size s
  | array length elem => exact Nat.dvd_mul_left_of_dvd (dvd_alignTo _ _) length
  | struct members => exact dvd_alignTo _ _

/-- No room is left between the elements of an array. -/
theorem allocSize_eq_storeSize (t : MemTy σ) : D.allocSize t = D.storeSize t :=
  alignTo_eq_self (abiAlign_pos t) (abiAlign_dvd_storeSize t)

theorem maxAlign_le_iff {ts : List (MemTy σ)} {m : Nat} :
    D.maxAlign ts ≤ m ↔ 1 ≤ m ∧ ∀ t ∈ ts, D.abiAlign t ≤ m := by
  induction ts with
  | nil => simp [maxAlign]
  | cons t ts ih =>
    simp only [maxAlign, Nat.max_le, ih, List.forall_mem_cons]
    grind

theorem le_maxAlign {ts : List (MemTy σ)} {t : MemTy σ} (ht : t ∈ ts) :
    D.abiAlign t ≤ D.maxAlign ts :=
  (maxAlign_le_iff.mp (Nat.le_refl _)).2 t ht

end Layout

/-! ## Two layouts -/

/-- The structure with these members is the type, or is somewhere inside it. -/
inductive MemTy.Inside {σ : Type*} (ms : List (MemTy σ)) : MemTy σ → Prop where
  | self : Inside ms (.struct ms)
  | elem {length : Nat} {t : MemTy σ} : Inside ms t → Inside ms (.array length t)
  | member {ts : List (MemTy σ)} {t : MemTy σ} : t ∈ ts → Inside ms t → Inside ms (.struct ts)

/-- A structure of scalars holds no other one. -/
theorem MemTy.Inside.eq_of_scalars {σ : Type*} {ms ts : List (MemTy σ)}
    (h : MemTy.Inside ms (.struct ts)) (hts : ∀ t ∈ ts, ∃ s, t = .scalar s) : ms = ts := by
  cases h with
  | self => rfl
  | member ht hms =>
    obtain ⟨s, rfl⟩ := hts _ ht
    cases hms

namespace Layout

variable {σ : Type*} (D D' : Layout σ)

/-- The second layout is the first one with some alignments relaxed. -/
structure Relaxes : Prop where
  size : ∀ s, D'.size s = D.size s
  align : ∀ s, D'.align s ∣ D.align s

/-- The structure has the same alignment, size and offsets in both layouts. -/
structure SamePlaces (ms : List (MemTy σ)) : Prop where
  align : D.abiAlign (.struct ms) = D'.abiAlign (.struct ms)
  size : D.allocSize (.struct ms) = D'.allocSize (.struct ms)
  offsets : D.offsets ms 0 = D'.offsets ms 0

/-- An array of a scalar with another alignment, or such a scalar itself. -/
def Realigned : MemTy σ → Prop
  | .scalar s => D.align s ≠ D'.align s
  | .array _ elem => Realigned elem
  | .struct _ => False

/-- In the relaxed layout the structure is as aligned as its realigned members were, and they
all happen to be at multiples of what their alignments were. -/
structure HappensToFit (ms : List (MemTy σ)) : Prop where
  align : ∀ t ∈ ms, D.Realigned D' t → D.abiAlign t ≤ D'.abiAlign (.struct ms)
  offsets : ∀ x ∈ ms.zip (D'.offsets ms 0), D.Realigned D' x.1 → D.abiAlign x.1 ∣ x.2

/-- What the rest of a structure sees of a member: it has one size, and one alignment if it
is not realigned. -/
structure SameOutside (t : MemTy σ) : Prop where
  size : D.allocSize t = D'.allocSize t
  align : ¬ D.Realigned D' t → D.abiAlign t = D'.abiAlign t

variable {D D'}

theorem sameOutside (hD : D.Relaxes D') {t : MemTy σ}
    (h : ∀ ms, MemTy.Inside ms t → D.SamePlaces D' ms) : D.SameOutside D' t := by
  induction t with
  | scalar s =>
    constructor
    · rw [allocSize_eq_storeSize, allocSize_eq_storeSize]
      exact (hD.size s).symm
    · intro hs
      simpa [Realigned, abiAlign] using hs
  | array length elem ih =>
    obtain ⟨hsize, halign⟩ := ih fun ms hms => h ms (.elem hms)
    refine ⟨?_, halign⟩
    rw [allocSize_eq_storeSize, allocSize_eq_storeSize]
    exact congrArg (length * ·) hsize
  | struct ms =>
    have hms := h ms .self
    exact ⟨hms.size, fun _ => hms.align⟩

theorem Relaxes.abiAlign_dvd (hD : D.Relaxes D') {t : MemTy σ} (h : D.SameOutside D' t) :
    D'.abiAlign t ∣ D.abiAlign t := by
  by_cases ht : D.Realigned D' t
  · clear h
    induction t with
    | scalar s => exact hD.align s
    | array length elem ih => exact ih ht
    | struct ms => exact ht.elim
  · exact ⟨1, by rw [h.align ht, Nat.mul_one]⟩

theorem offsets_eq_iff (hD : D.Relaxes D') {ms : List (MemTy σ)}
    (h : ∀ t ∈ ms, D.SameOutside D' t) (o : Nat) : D.offsets ms o = D'.offsets ms o ↔
      ∀ x ∈ ms.zip (D'.offsets ms o), D.Realigned D' x.1 → D.abiAlign x.1 ∣ x.2 := by
  induction ms generalizing o with
  | nil => simp [offsets]
  | cons t ts ih =>
    obtain ⟨ht, hts⟩ := List.forall_mem_cons.mp h
    have hhead : alignTo o (D.abiAlign t) = alignTo o (D'.abiAlign t) ↔
        (D.Realigned D' t → D.abiAlign t ∣ alignTo o (D'.abiAlign t)) := by
      rw [alignTo_eq_alignTo_iff (abiAlign_pos t) (abiAlign_pos t) (hD.abiAlign_dvd ht)]
      by_cases hre : D.Realigned D' t
      · simp [hre]
      · simp only [hre, IsEmpty.forall_iff, iff_true, ht.align hre]
        exact dvd_alignTo _ _
    simp only [offsets, List.zip_cons_cons, List.forall_mem_cons, List.cons.injEq, ← hhead]
    constructor
    · rintro ⟨hfirst, hrest⟩
      rw [hfirst, ht.size] at hrest
      exact ⟨hfirst, (ih hts _).mp hrest⟩
    · rintro ⟨hfirst, hrest⟩
      rw [hfirst, ht.size]
      exact ⟨rfl, (ih hts _).mpr hrest⟩

theorem endOffset_eq {ms : List (MemTy σ)} (h : ∀ t ∈ ms, D.SameOutside D' t) {o : Nat}
    (ho : D.offsets ms o = D'.offsets ms o) : D.endOffset ms o = D'.endOffset ms o := by
  induction ms generalizing o with
  | nil => rfl
  | cons t ts ih =>
    obtain ⟨ht, hts⟩ := List.forall_mem_cons.mp h
    obtain ⟨hfirst, hrest⟩ := List.cons.inj ho
    rw [hfirst, ht.size] at hrest
    have hsize : alignTo (D.storeSize t) (D.abiAlign t) =
      alignTo (D'.storeSize t) (D'.abiAlign t) := ht.size
    rw [endOffset, endOffset, hfirst, hsize]
    exact ih hts hrest

theorem maxAlign_eq_iff (hD : D.Relaxes D') {ms : List (MemTy σ)}
    (h : ∀ t ∈ ms, D.SameOutside D' t) : D.maxAlign ms = D'.maxAlign ms ↔
      ∀ t ∈ ms, D.Realigned D' t → D.abiAlign t ≤ D'.maxAlign ms := by
  constructor
  · intro heq t ht _
    rw [← heq]
    exact le_maxAlign ht
  · intro hre
    apply Nat.le_antisymm
    · refine maxAlign_le_iff.mpr ⟨(maxAlign_le_iff.mp (Nat.le_refl _)).1, fun t ht => ?_⟩
      by_cases hret : D.Realigned D' t
      · exact hre t ht hret
      · rw [(h t ht).align hret]
        exact le_maxAlign ht
    · refine maxAlign_le_iff.mpr ⟨(maxAlign_le_iff.mp (Nat.le_refl _)).1, fun t ht => ?_⟩
      have hle := Nat.le_of_dvd (abiAlign_pos t) (hD.abiAlign_dvd (h t ht))
      exact Nat.le_trans hle (le_maxAlign ht)

/-- A structure whose members look the same from outside. -/
theorem samePlaces_iff (hD : D.Relaxes D') {ms : List (MemTy σ)}
    (h : ∀ t ∈ ms, D.SameOutside D' t) : D.SamePlaces D' ms ↔ D.HappensToFit D' ms := by
  constructor
  · intro hsame
    exact ⟨(maxAlign_eq_iff hD h).mp hsame.align, (offsets_eq_iff hD h 0).mp hsame.offsets⟩
  · intro hfit
    have halign : D.maxAlign ms = D'.maxAlign ms := (maxAlign_eq_iff hD h).mpr hfit.align
    have hoffsets := (offsets_eq_iff hD h 0).mpr hfit.offsets
    refine ⟨halign, ?_, hoffsets⟩
    rw [allocSize_eq_storeSize, allocSize_eq_storeSize, storeSize, storeSize, halign,
      endOffset_eq h hoffsets]

/-- All structures of a type are the same in both layouts exactly if the relaxed one happens
to place them as the first one does. -/
theorem samePlaces_inside_iff (hD : D.Relaxes D') (t : MemTy σ) :
    (∀ ms, MemTy.Inside ms t → D.SamePlaces D' ms) ↔
      ∀ ms, MemTy.Inside ms t → D.HappensToFit D' ms := by
  induction t with
  | scalar s =>
    have hnone (ms : List (MemTy σ)) : ¬ MemTy.Inside ms (.scalar s) := by
      intro h
      cases h
    simp only [hnone, IsEmpty.forall_iff, implies_true]
  | array length elem ih =>
    have hinside (ms : List (MemTy σ)) : MemTy.Inside ms (.array length elem) ↔
        MemTy.Inside ms elem := by
      constructor
      · intro h
        cases h
        assumption
      · exact .elem
    simpa only [hinside] using ih
  | struct ts ih =>
    have hinside (P : List (MemTy σ) → Prop) : (∀ ms, MemTy.Inside ms (.struct ts) → P ms) ↔
        P ts ∧ ∀ t ∈ ts, ∀ ms, MemTy.Inside ms t → P ms := by
      constructor
      · intro h
        exact ⟨h ts .self, fun t ht ms hms => h ms (.member ht hms)⟩
      · rintro ⟨hself, hmembers⟩ ms hms
        cases hms with
        | self => exact hself
        | member ht hms => exact hmembers _ ht ms hms
    rw [hinside, hinside]
    constructor
    · rintro ⟨hself, hmembers⟩
      have hout : ∀ t ∈ ts, D.SameOutside D' t := fun t ht => sameOutside hD (hmembers t ht)
      exact ⟨(samePlaces_iff hD hout).mp hself, fun t ht => (ih t ht).mp (hmembers t ht)⟩
    · rintro ⟨hself, hmembers⟩
      have hsame : ∀ t ∈ ts, ∀ ms, MemTy.Inside ms t → D.SamePlaces D' ms :=
        fun t ht => (ih t ht).mpr (hmembers t ht)
      have hout : ∀ t ∈ ts, D.SameOutside D' t := fun t ht => sameOutside hD (hsame t ht)
      exact ⟨(samePlaces_iff hD hout).mpr hself, hsame⟩

end Layout

end Squanchy.Library
