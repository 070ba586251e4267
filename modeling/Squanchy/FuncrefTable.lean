import Squanchy.Deobfuscator.Function
import Squanchy.IR.Related

/-!
# Deleting the stores of the function table

`replaceFUNCREF_TABLE` deletes every store of a function that uses `FUNCREF_TABLE`, and does
not look for a read. A run of the original is followed with the list of the cells whose last
write was by a deleted store. As long as no load, callee or host function reads one of them,
the two memories differ only there, and the functions called and the value returned are the
same.
-/

namespace Squanchy

open Library

/-! ## Stale cells -/

/-- The store is one that the pass deletes from `F`. -/
def StoreSite.deletedFrom (F : String) (site : StoreSite) : Bool :=
  site.fn == F && (site.value.isFuncRefTable || site.ptr.isFuncRefTable)

/-- Follow the cells whose last write was by a store deleted from `F`. The run is rejected
when it reads one, or when such a store goes through something that is no pointer. -/
def noStaleRead (F : String) : Comparison Traced (List Addr) Event where
  watch stale e := match e.2 with
    | .read at_ => if ∃ a ∈ at_, a ∈ stale then none else some stale
    | .write (some site) at_ =>
      some (if site.deletedFrom F then at_ ++ stale else stale.filter (· ∉ at_))
    | .write none at_ => some (stale.filter (· ∉ at_))
    | .fault site => if site.deletedFrom F then none else some stale
    | _ => some stale
  view := calledBy

/-- No load, callee or host function of the run reads a cell whose last write was by a store
deleted from `F`. -/
def NoStaleRead (F : String) (t : List Traced) : Prop :=
  (t.foldlM (noStaleRead F).watch []).isSome = true

instance (F : String) (t : List Traced) : Decidable (NoStaleRead F t) :=
  inferInstanceAs (Decidable (_ = true))

/-- The memories agree outside the stale cells. -/
structure AgreeOff (stale : List Addr) (h h' : Heap) : Prop where
  next : h.next = h'.next
  mem : ∀ a, a ∉ stale → h.mem a = h'.mem a

namespace AgreeOff

variable {stale : List Addr} {h h' : Heap}

theorem alloc (hh : AgreeOff stale h h') : AgreeOff stale h.alloc h'.alloc where
  next := by simp [Heap.alloc, hh.next]
  mem a ha := by simp [Heap.alloc, hh.next, hh.mem a ha]

theorem mem_foldl_update (m : Addr → Val) (ws : List (Addr × Val)) {a : Addr}
    (ha : a ∉ ws.map Prod.fst) :
    ws.foldl (fun m w => Function.update m w.1 w.2) m a = m a := by
  induction ws generalizing m with
  | nil => rfl
  | cons w ws ih =>
    obtain ⟨hw, hws⟩ := not_or.mp fun h => ha (List.mem_cons.mpr h)
    rw [List.foldl_cons, ih _ hws, Function.update_of_ne hw]

/-- A write on both sides makes its cells agree. -/
theorem writes (hh : AgreeOff stale h h') (ws : List (Addr × Val)) :
    AgreeOff (stale.filter (· ∉ ws.map Prod.fst)) (h.writes ws) (h'.writes ws) where
  next := hh.next
  mem a ha := by
    refine foldl_update_congr ws ?_
    by_cases hmem : a ∈ ws.map Prod.fst
    · exact .inr hmem
    · exact .inl (hh.mem a fun hs => ha (List.mem_filter.mpr ⟨hs, by simpa using hmem⟩))

/-- A write on the left makes its cells stale. -/
theorem writes_left (hh : AgreeOff stale h h') (ws : List (Addr × Val)) :
    AgreeOff (ws.map Prod.fst ++ stale) (h.writes ws) h' where
  next := hh.next
  mem a ha := by
    obtain ⟨hws, hs⟩ := not_or.mp fun h => ha (List.mem_append.mpr h)
    exact (mem_foldl_update h.mem ws hws).trans (hh.mem a hs)

end AgreeOff

/-- Same value, and memories that agree off the stale cells. -/
def AgreeAfter {α : Type} (stale : List Addr) (x y : α × Heap) : Prop :=
  x.1 = y.1 ∧ AgreeOff stale x.2 y.2

/-! ## Instructions on both sides -/

section Simulation

variable {m : Machine} {M M' : Module} {F : String} {stale : List Addr}

theorem watch_one {e : Traced} {stale' : List Addr}
    (h : [e].foldlM (noStaleRead F).watch stale = some stale') :
    (noStaleRead F).watch stale e = some stale' := by
  simpa using h

theorem watch_read {at_ : List Addr} {stale' : List Addr}
    (h : [own (.read at_)].foldlM (noStaleRead F).watch stale = some stale') :
    stale = stale' ∧ ∀ a ∈ at_, a ∉ stale := by
  have hw := watch_one h
  by_cases hr : ∃ a ∈ at_, a ∈ stale
  · simp [noStaleRead, own, hr] at hw
  · simp only [noStaleRead, own, if_neg hr] at hw
    exact ⟨Option.some.inj hw, fun a ha hs => hr ⟨a, ha, hs⟩⟩

/-- The cells written are those that the list of writes names. -/
theorem map_fst_zip_cells (l : Loc) (off : Int) (vs : List Val) :
    ((cells l off vs.length).zip vs).map Prod.fst = cells l off vs.length :=
  List.map_fst_zip (by simp [cells])

theorem Simple.step_keeps {s : Simple} (fn : String) (fr : Frame) {h h' : Heap}
    (hh : AgreeOff stale h h') (hs : fn = F → Instr.usesFuncRefTable (.simple s) = false) :
    Run.Sim (noStaleRead F) AgreeAfter stale (s.step m fn fr h) (s.step m fn fr h') := by
  cases s with
  | alloca dst ty => exact .pure ⟨by rw [hh.next], hh.alloc⟩
  | load dst ty p =>
    simp only [Simple.step]
    split
    · rename_i l off _
      intro stale' hw
      simp only [Run.emit_trace, Run.pure_trace, List.append_nil] at hw
      obtain ⟨rfl, hclear⟩ := watch_read hw
      refine ⟨rfl, .done ⟨?_, hh⟩⟩
      have hmem : (cells l off (m.size ty)).map h.mem = (cells l off (m.size ty)).map h'.mem :=
        List.map_congr_left fun a ha => hh.mem a (hclear a ha)
      rw [hmem]
    · exact .trap
  | store ty v p =>
    have hsite : StoreSite.deletedFrom F ⟨fn, v, p⟩ = false := by
      unfold StoreSite.deletedFrom
      by_cases hfn : fn = F
      · simpa [Instr.usesFuncRefTable] using fun _ => hs hfn
      · simp [hfn]
    simp only [Simple.step]
    split
    · rename_i l off _
      refine .emit rfl fun stale' hw => .pure ⟨rfl, ?_⟩
      have hwatch := watch_one hw
      simp only [noStaleRead, own, hsite, Bool.false_eq_true, if_false] at hwatch
      have hwrites := hh.writes ((cells l off (m.encode ty (v.eval fr)).length).zip
        (m.encode ty (v.eval fr)))
      rw [map_fst_zip_cells] at hwrites
      exact Option.some.inj hwatch ▸ hwrites
    · exact .emit rfl fun _ _ => .trap
  | gep dst elem base idx =>
    refine .emit rfl fun stale' hw => ?_
    obtain rfl : stale = stale' := by
      revert hw
      split <;> simp [noStaleRead, own]
    exact .pure ⟨rfl, hh⟩
  | op dst ty opcode args =>
    simp only [Simple.step]
    split
    · exact .pure ⟨rfl, hh⟩
    · exact .trap

/-- The deleted store, against nothing. -/
theorem Simple.step_deleted {s : Simple} (fr : Frame) {h h' : Heap} (hh : AgreeOff stale h h')
    (hs : Instr.usesFuncRefTable (.simple s) = true) :
    Run.Sim (noStaleRead F) AgreeAfter stale (s.step m F fr h) (Run.pure (fr, h')) := by
  cases s with
  | store ty v p =>
    have hsite : StoreSite.deletedFrom F ⟨F, v, p⟩ = true := by
      simpa [StoreSite.deletedFrom, Instr.usesFuncRefTable] using hs
    simp only [Simple.step]
    split
    · rename_i l off _
      refine .emit_left rfl fun stale' hw => .pure ⟨rfl, ?_⟩
      have hwatch := watch_one hw
      simp only [noStaleRead, own, hsite, if_true] at hwatch
      have hwrites := hh.writes_left ((cells l off (m.encode ty (v.eval fr)).length).zip
        (m.encode ty (v.eval fr)))
      rw [map_fst_zip_cells] at hwrites
      exact Option.some.inj hwatch ▸ hwrites
    · exact .rejected (by simp [noStaleRead, own, hsite])
  | _ => simp [Instr.usesFuncRefTable] at hs

theorem Host.run_keeps (x : Host) (args : List Val) {h h' : Heap} (hh : AgreeOff stale h h') :
    Run.Sim (noStaleRead F) AgreeAfter stale (x.run args h) (x.run args h') := by
  refine .emit rfl fun stale' hw => ?_
  obtain ⟨rfl, hclear⟩ := watch_read hw
  have heffect : x.effect args h = x.effect args h' :=
    x.reads_only args h h' hh.next fun a ha => hh.mem a (hclear a ha)
  rw [heffect]
  split
  · rename_i e _
    refine .emit rfl fun stale'' hw' => .pure ⟨rfl, ?_⟩
    have hwrites := hh.writes e.writes
    obtain rfl := Option.some.inj (watch_one hw')
    exact ⟨by simp [hh.next], hwrites.mem⟩
  · exact .trap

/-! ## Runs -/

/-- The code of `fn` in the module after the pass. -/
def keptCode (F fn : String) (c : Code) : Code :=
  if fn = F then c.eraseInstrs Instr.usesFuncRefTable else c

theorem after_eraseInstrs (p : Instr → Bool) (l : String) (c : Code) :
    (c.eraseInstrs p).after l = (c.after l).map (·.eraseInstrs p) := by
  induction c with
  | stop => rfl
  | label l' k ih => by_cases h : l' = l <;> simp [Code.eraseInstrs, Code.after, h, ih]
  | instr i k ih =>
    simp only [Code.eraseInstrs]
    split <;> exact ih
  | inlined dst args b k _ ih => exact ih

theorem after_keptCode (F fn l : String) (c : Code) :
    (keptCode F fn c).after l = (c.after l).map (keptCode F fn) := by
  unfold keptCode
  split
  · exact after_eraseInstrs _ l c
  · simp

theorem keptCode_instr {F fn : String} {i : Instr}
    (hi : fn = F → i.usesFuncRefTable = false) (k : Code) :
    keptCode F fn (.instr i k) = .instr i (keptCode F fn k) := by
  unfold keptCode
  split
  · rename_i hfn
    simp [Code.eraseInstrs, hi hfn]
  · rfl

theorem keptCode_inlined (F fn : String) (dst : Option Nat) (args : List Operand) (b k : Code) :
    keptCode F fn (.inlined dst args b k) =
      .inlined dst args (keptCode F fn b) (keptCode F fn k) := by
  unfold keptCode
  split <;> rfl

/-- The bodies after the pass. -/
def KeptIn (F : String) (M M' : Module) : Prop :=
  ∀ g, (M'.bodyOf g).map (·.code) = (M.bodyOf g).map fun b => keptCode F g b.code

def SimKept (F : String) (e e' : Exec) : Prop :=
  ∀ fn w k fr h h' stale, AgreeOff stale h h' →
    Run.Sim (noStaleRead F) AgreeAfter stale (e fn w k fr h)
      (e' fn (keptCode F fn w) (keptCode F fn k) fr h')

theorem noStaleRead_deeper (F : String) :
    (∀ d e, (noStaleRead F).watch d (deeper e) = (noStaleRead F).watch d e) ∧
      ∀ e, (noStaleRead F).view (deeper e) = (noStaleRead F).view e :=
  ⟨fun _ _ => rfl, fun _ => rfl⟩

theorem enter_kept (hM : KeptIn F M M') {e e' : Exec} (he : SimKept F e e') (g : String)
    (args : List Val) {h h' : Heap} (hh : AgreeOff stale h h') :
    Run.Sim (noStaleRead F) AgreeAfter stale (enter m M e g args h) (enter m M' e' g args h') := by
  have hg := hM g
  unfold enter
  cases hb : M.bodyOf g with
  | none =>
    have hb' : M'.bodyOf g = none := by simpa [hb] using hg
    rw [hb']
    exact Host.run_keeps _ _ hh
  | some b =>
    rw [hb] at hg
    obtain ⟨b', hb', hcode⟩ := Option.map_eq_some_iff.mp hg
    rw [hb']
    dsimp only at hcode ⊢
    rw [hcode]
    exact he _ _ _ _ _ _ _ hh

theorem CallBase.run_kept (hM : KeptIn F M M') {e e' : Exec} (he : SimKept F e e') (fr : Frame)
    (c : CallBase) {h h' : Heap} (hh : AgreeOff stale h h') :
    Run.Sim (noStaleRead F) AgreeAfter stale (c.run m M e fr h) (c.run m M' e' fr h') := by
  unfold CallBase.run
  dsimp only
  split
  · exact Host.run_keeps _ _ hh
  · split
    · refine .emit rfl fun stale' hw => ?_
      obtain rfl : stale = stale' := by simpa [noStaleRead, own] using hw
      exact .mapTrace (noStaleRead_deeper F).1 (noStaleRead_deeper F).2 (enter_kept hM he _ _ hh)
    · exact .trap

theorem Code.run_kept (hM : KeptIn F M M') {e e' : Exec} (he : SimKept F e e') (fn : String)
    (w k : Code) (fr : Frame) {h h' : Heap} (hh : AgreeOff stale h h') :
    Run.Sim (noStaleRead F) AgreeAfter stale (Code.run m M e fn w k fr h)
      (Code.run m M' e' fn (keptCode F fn w) (keptCode F fn k) fr h') := by
  induction k generalizing fr h h' stale with
  | stop =>
    unfold keptCode
    split <;> exact .trap
  | label l k ih =>
    have : keptCode F fn (.label l k) = .label l (keptCode F fn k) := by
      unfold keptCode
      split <;> rfl
    rw [this]
    exact ih fr hh
  | instr i k ih =>
    cases i with
    | simple s =>
      have hnext {x y : Frame × Heap} {d : List Addr} (hxy : AgreeAfter d x y) :
          Run.Sim (noStaleRead F) AgreeAfter d (Code.run m M e fn w k x.1 x.2)
            (Code.run m M' e' fn (keptCode F fn w) (keptCode F fn k) y.1 y.2) := by
        rw [hxy.1]
        exact ih _ hxy.2
      by_cases hdel : fn = F ∧ Instr.usesFuncRefTable (.simple s) = true
      · obtain ⟨rfl, hdel⟩ := hdel
        have herase : keptCode fn fn (.instr (.simple s) k) = keptCode fn fn k := by
          simp [keptCode, Code.eraseInstrs, hdel]
        rw [herase, Code.run, ← Run.pure_bind (fr, h') fun y : Frame × Heap =>
          Code.run m M' e' fn (keptCode fn fn w) (keptCode fn fn k) y.1 y.2]
        exact (Simple.step_deleted fr hh hdel).bind fun _ _ _ => hnext
      · have hkeep : fn = F → Instr.usesFuncRefTable (.simple s) = false := by
          intro hfn
          simpa [hfn] using hdel
        rw [keptCode_instr hkeep, Code.run, Code.run]
        exact (Simple.step_keeps fn fr hh hkeep).bind fun _ _ _ => hnext
    | call c =>
      rw [keptCode_instr (by simp [Instr.usesFuncRefTable]), Code.run, Code.run]
      refine (CallBase.run_kept hM he fr c hh).bind fun _ x y hxy => ?_
      rw [hxy.1]
      exact ih _ hxy.2
    | term t =>
      rw [keptCode_instr (by simp [Instr.usesFuncRefTable]), Code.run, Code.run]
      split
      · rename_i l _
        rw [after_keptCode]
        cases w.after l with
        | none => exact .trap
        | some k' => exact he _ _ _ _ _ _ _ hh
      · exact .pure ⟨rfl, hh⟩
      · exact .trap
  | inlined dst args b k _ ih =>
    rw [keptCode_inlined, Code.run, Code.run]
    refine (he _ _ _ _ _ _ _ hh).bind fun _ x y hxy => ?_
    rw [hxy.1]
    exact ih _ hxy.2

theorem exec_kept (hM : KeptIn F M M') (n : Nat) : SimKept F (exec m M n) (exec m M' n) := by
  induction n with
  | zero => exact fun _ _ _ _ _ _ _ _ => .timeout
  | succ n ih =>
    intro fn w k fr _ _ _ hh
    exact Code.run_kept hM ih fn w k fr hh

end Simulation

/-! ## The theorem -/

theorem functionType_replaceFUNCREF_TABLE {M M' : Module} {F : String}
    (h : replaceFUNCREF_TABLE F M = .ok M') : M'.functionType = M.functionType := by
  unfold replaceFUNCREF_TABLE at h
  split at h
  · exact Except.ok.inj h ▸ rfl
  · simp only [bind_eq_ok, pure_eq_ok] at h
    obtain ⟨_, _, _, _, rfl⟩ := h
    exact functionType_eraseInstrs Instr.usesFuncRefTable F M

theorem keptIn_of_ok {M M' : Module} {F : String} (h : replaceFUNCREF_TABLE F M = .ok M') :
    M' = M ∨ KeptIn F M M' := by
  unfold replaceFUNCREF_TABLE at h
  split at h
  · exact .inl (Except.ok.inj h).symm
  · simp only [bind_eq_ok, pure_eq_ok] at h
    obtain ⟨_, _, _, _, rfl⟩ := h
    right
    intro g
    rw [Module.bodyOf, Module.getFunction_modify M F
      (fun f => { f with body := f.body.map (·.eraseInstrs Instr.usesFuncRefTable) })
      (fun _ => rfl), Module.bodyOf]
    by_cases hg : g = F
    · subst hg
      cases hf : M.getFunction g with
      | none => simp
      | some f => cases hb : f.body <;> simp [hb, keptCode, Body.eraseInstrs, Body.withCode]
    · simp [hg, keptCode]

/-- Runs that end alike: the same value, or both a trap, or both still going. -/
def SameEnd (r r' : Run Traced (Val × Heap)) : Prop :=
  Result.Rel (fun x y => x.1 = y.1) r.result r'.result

/-- In every run that reads no cell last written by a deleted store, the module after the
pass makes the same calls and ends alike. -/
theorem replaceFUNCREF_TABLE_keeps {M M' : Module} {F : String}
    (hM' : replaceFUNCREF_TABLE F M = .ok M') (m : Machine) (g : String) (args : List Val)
    (h : Heap) (n : Nat) (hclear : NoStaleRead F (callFunction m M g args h n).trace) :
    callSequence (callFunction m M g args h n).trace =
        callSequence (callFunction m M' g args h n).trace ∧
      SameEnd (callFunction m M g args h n) (callFunction m M' g args h n) := by
  obtain ⟨stale, hstale⟩ := Option.isSome_iff_exists.mp hclear
  obtain rfl | hkept := keptIn_of_ok hM'
  · exact Run.Sim.refl (C := noStaleRead F) (T := fun _ x y => x.1 = y.1) (fun _ _ => rfl) _
      stale hstale
  · have hagree : AgreeOff [] h h := ⟨rfl, fun _ _ => rfl⟩
    have hsim := enter_kept (m := m) hkept (exec_kept (m := m) hkept n) g args hagree
    exact (hsim.mono fun _ _ _ hxy => hxy.1) stale hstale

/-! ## A table that is read back -/

/-- Deleting the table stores of a function changes no call and no value. -/
def TableStoresRemovable : Prop :=
  ∀ (M M' : Module) (F : String), (M.getGlobalVariable "FUNCREF_TABLE").isSome = true →
    replaceFUNCREF_TABLE F M = .ok M' → ∀ (m : Machine) (args : List Val) (h : Heap) (n : Nat),
    callSequence (callFunction m M F args h n).trace =
        callSequence (callFunction m M' F args h n).trace ∧
      SameEnd (callFunction m M F args h n) (callFunction m M' F args h n)

/-- `init_tables` fills the table, and `w2c_squanchy_f0` fills it and calls through it. Where
`w2c_squanchy_f2` calls through the table, `init_tables` has filled that place. -/
def tableModule : Module where
  functions := [
    { name := "init_tables", params := [.ptr],
      body := some
        { entry := "entry"
          code :=
            .instr (.simple (.store .ptr (.func "w2c_squanchy_f1") (.global "FUNCREF_TABLE"))) <|
            .instr (.term (.ret none)) .stop
          closed := rfl } },
    { name := "w2c_squanchy_f0", params := [.ptr], retTy := .int 32,
      body := some
        { entry := "entry"
          code :=
            .instr (.simple (.store .ptr (.func "w2c_squanchy_f1") (.global "FUNCREF_TABLE"))) <|
            .instr (.simple (.load 0 .ptr (.global "FUNCREF_TABLE"))) <|
            .instr (.call { dst := some 1, functionType := { retTy := .int 32 },
                            callee := .reg 0 0, args := [] }) <|
            .instr (.term (.ret (some (.reg 0 1)))) .stop
          closed := rfl } },
    { name := "w2c_squanchy_f1", params := [], retTy := .int 32,
      body := some ⟨"entry", .instr (.term (.ret (some (.int 32 1)))) .stop, rfl⟩ },
    { name := "w2c_squanchy_f2", params := [.ptr], retTy := .int 32,
      body := some
        { entry := "entry"
          code :=
            .instr (.simple (.store .ptr (.func "w2c_squanchy_f0")
              (.constExpr .getElementPtr (.global "FUNCREF_TABLE") 1))) <|
            .instr (.call { dst := none, functionType := { params := [.ptr] },
                            callee := .func "init_tables", args := [.arg 0 0] }) <|
            .instr (.simple (.load 0 .ptr (.global "FUNCREF_TABLE"))) <|
            .instr (.call { dst := some 1, functionType := { retTy := .int 32 },
                            callee := .reg 0 0, args := [] }) <|
            .instr (.term (.ret (some (.reg 0 1)))) .stop
          closed := rfl } }]
  globals := [{ name := "FUNCREF_TABLE", initializer := some (.other "zeroinitializer") }]

def tableModuleAfter (F : String) : Module :=
  (replaceFUNCREF_TABLE F tableModule).toOption.getD tableModule

/-- The indirect call of `w2c_squanchy_f0` reaches `w2c_squanchy_f1` before the pass, and
nothing after it. -/
theorem table_store_is_read_back : ¬ TableStoresRemovable := by
  intro hall
  have hsame := hall tableModule (tableModuleAfter "w2c_squanchy_f0") "w2c_squanchy_f0" rfl
    (ok_getD (by decide +kernel) _) cellMachine [.null] ⟨0, fun _ => .undefined⟩ 3
  have hbefore : callSequence (callFunction cellMachine tableModule "w2c_squanchy_f0" [.null]
      ⟨0, fun _ => .undefined⟩ 3).trace = [.call none "w2c_squanchy_f1" []] := by decide +kernel
  have hafter : callSequence (callFunction cellMachine (tableModuleAfter "w2c_squanchy_f0")
      "w2c_squanchy_f0" [.null] ⟨0, fun _ => .undefined⟩ 3).trace = [] := by decide +kernel
  rw [hbefore, hafter] at hsame
  exact absurd hsame.1 (by simp)

/-- The store that is deleted from `w2c_squanchy_f2` is not the one that its call through the table
reads. -/
theorem replaceFUNCREF_TABLE_keeps_f2 :
    callSequence (callFunction cellMachine tableModule "w2c_squanchy_f2" [.null]
        ⟨0, fun _ => .undefined⟩ 3).trace =
        callSequence (callFunction cellMachine (tableModuleAfter "w2c_squanchy_f2")
          "w2c_squanchy_f2" [.null] ⟨0, fun _ => .undefined⟩ 3).trace ∧
      SameEnd (callFunction cellMachine tableModule "w2c_squanchy_f2" [.null]
          ⟨0, fun _ => .undefined⟩ 3)
        (callFunction cellMachine (tableModuleAfter "w2c_squanchy_f2") "w2c_squanchy_f2" [.null]
          ⟨0, fun _ => .undefined⟩ 3) :=
  replaceFUNCREF_TABLE_keeps (F := "w2c_squanchy_f2") (ok_getD (by decide +kernel) _) cellMachine
    "w2c_squanchy_f2" [.null] ⟨0, fun _ => .undefined⟩ 3 (by decide +kernel)

/-! ## Which stores are deleted, and how often -/

/-- How often the pass finds a store: `users` lists a user once for each of its operands that
is the table or the address of an element. -/
def Instr.timesCollected : Instr → Nat
  | .simple (.store _ v p) =>
    (if v.isFuncRefTable then 1 else 0) + if p.isFuncRefTable then 1 else 0
  | _ => 0

/-- The table, or an address that constant element addresses make of it, one over the other. -/
def ConstAddress.inFuncRefTable : ConstAddress → Bool
  | .global g => g == "FUNCREF_TABLE"
  | .expr .getElementPtr a _ => a.inFuncRefTable
  | .expr .other _ _ => false

def Operand.inFuncRefTable : Operand → Bool
  | .global g => g == "FUNCREF_TABLE"
  | .constExpr .getElementPtr a _ => a.inFuncRefTable
  | _ => false

theorem Operand.inFuncRefTable_of_isFuncRefTable {o : Operand} (h : o.isFuncRefTable = true) :
    o.inFuncRefTable = true := by
  unfold isFuncRefTable at h
  split at h
  · exact h
  · exact h
  · cases h

/-- A store into the table. -/
def Instr.storesToFuncRefTable : Instr → Bool
  | .simple (.store _ _ p) => p.inFuncRefTable
  | _ => false

/-- A store into the table through an element address over another one. -/
def Instr.storesDeepInFuncRefTable : Instr → Bool
  | .simple (.store _ _ p) => p.inFuncRefTable && !p.isFuncRefTable
  | _ => false

/-- A store of the table's address, or of an element's. -/
def Instr.storesFuncRefTableItself : Instr → Bool
  | .simple (.store _ v _) => v.isFuncRefTable
  | _ => false

theorem Instr.usesFuncRefTable_iff (i : Instr) :
    i.usesFuncRefTable = true ↔ 1 ≤ i.timesCollected := by
  rcases i with (_ | _ | ⟨ty, v, p⟩ | _ | _) | c | t <;>
    simp [usesFuncRefTable, timesCollected]
  cases v.isFuncRefTable <;> cases p.isFuncRefTable <;> simp

theorem Instr.usesFuncRefTableTwice_iff (i : Instr) :
    i.usesFuncRefTableTwice = true ↔ 2 ≤ i.timesCollected := by
  rcases i with (_ | _ | ⟨ty, v, p⟩ | _ | _) | c | t <;>
    simp [usesFuncRefTableTwice, timesCollected]
  cases v.isFuncRefTable <;> cases p.isFuncRefTable <;> simp

theorem Instr.timesCollected_eq_iff (i : Instr) :
    i.timesCollected = (if i.storesToFuncRefTable then 1 else 0) ↔
      i.storesFuncRefTableItself = i.storesDeepInFuncRefTable := by
  rcases i with (_ | _ | ⟨ty, v, p⟩ | _ | _) | c | t <;>
    simp only [timesCollected, storesToFuncRefTable, storesFuncRefTableItself,
      storesDeepInFuncRefTable, Bool.false_eq_true, if_false]
  have hdeep : p.isFuncRefTable = true → p.inFuncRefTable = true :=
    Operand.inFuncRefTable_of_isFuncRefTable
  by_cases hv : v.isFuncRefTable = true <;> by_cases hp : p.isFuncRefTable = true
  · simp [hv, hp, hdeep hp]
  · by_cases hin : p.inFuncRefTable = true <;> simp [hv, hp, hin]
  · simp [hv, hp, hdeep hp]
  · by_cases hin : p.inFuncRefTable = true <;> simp [hv, hp, hin]

/-- The pass deletes the stores of `F` into the table, finding each of them once and no other
instruction, and leaves the rest of the module alone. -/
def ErasesTableStores (M : Module) (F : String) (f : Function) : Prop :=
  ∃ M', replaceFUNCREF_TABLE F M = .ok M' ∧
    M'.getFunction F = some (f.eraseInstrs Instr.storesToFuncRefTable) ∧
    (∀ n, n ≠ F → M'.getFunction n = M.getFunction n) ∧ M'.globals = M.globals ∧
    ∀ x ∈ f.instrs, (if (M.getGlobalVariable "FUNCREF_TABLE").isSome then x.2.timesCollected
      else 0) = if x.2.storesToFuncRefTable then 1 else 0

theorem replaceFUNCREF_TABLE_of_visible {M : Module} {F : String} {f : Function}
    (hf : M.getFunction F = some f)
    (htable : (M.getGlobalVariable "FUNCREF_TABLE").isSome = true)
    (honce : ∀ x ∈ f.instrs, x.2.timesCollected ≤ 1) :
    replaceFUNCREF_TABLE F M = .ok (M.modify F (·.eraseInstrs Instr.usesFuncRefTable)) := by
  obtain ⟨v, hv⟩ := Option.isSome_iff_exists.mp htable
  have hall : f.instrs.all (fun x => !x.2.usesFuncRefTableTwice) = true := by
    rw [List.all_eq_true]
    intro x hx
    have := honce x hx
    rw [Bool.not_eq_true', Bool.eq_false_iff, ne_eq, Instr.usesFuncRefTableTwice_iff]
    omega
  simp only [replaceFUNCREF_TABLE, hv, bind_eq_ok, orThrow_eq_ok, require_eq_ok, pure_eq_ok]
  exact ⟨f, hf, (), hall, rfl⟩

/-- The pass does not look at which operand of a store the table is, nor further than one element
address: it is right exactly if no store of `F` stores the table's address and none goes deeper,
but for those that do both. A table that it does not see must not be stored to. -/
theorem erasesTableStores_iff {M : Module} {F : String} {f : Function}
    (hf : M.getFunction F = some f) : ErasesTableStores M F f ↔
      ∀ x ∈ f.instrs, if (M.getGlobalVariable "FUNCREF_TABLE").isSome then
        x.2.storesFuncRefTableItself = x.2.storesDeepInFuncRefTable
      else x.2.storesToFuncRefTable = false := by
  cases htable : (M.getGlobalVariable "FUNCREF_TABLE").isSome with
  | true =>
    have hcount : (∀ x ∈ f.instrs, x.2.timesCollected =
        if x.2.storesToFuncRefTable then 1 else 0) ↔
        ∀ x ∈ f.instrs, x.2.storesFuncRefTableItself = x.2.storesDeepInFuncRefTable :=
      forall₂_congr fun x _ => x.2.timesCollected_eq_iff
    simp only [ErasesTableStores, htable, if_true, hcount]
    constructor
    · rintro ⟨_, _, _, _, _, h⟩
      exact h
    · intro h
      have honce := hcount.mpr h
      have hsame : f.eraseInstrs Instr.usesFuncRefTable =
          f.eraseInstrs Instr.storesToFuncRefTable := by
        apply Function.eraseInstrs_congr
        intro x hx
        rw [Bool.eq_iff_iff, Instr.usesFuncRefTable_iff, honce x hx]
        cases x.2.storesToFuncRefTable <;> simp
      refine ⟨_, replaceFUNCREF_TABLE_of_visible hf htable fun x hx => ?_, ?_,
        fun n hn => Module.getFunction_modify_of_ne (fun _ => rfl) hn, rfl, h⟩
      · rw [honce x hx]
        split <;> omega
      · simp [Module.getFunction_modify M F (·.eraseInstrs Instr.usesFuncRefTable) fun _ => rfl,
          hf, hsame]
  | false =>
    have hcount : (∀ x ∈ f.instrs, 0 = if x.2.storesToFuncRefTable then 1 else 0) ↔
        ∀ x ∈ f.instrs, x.2.storesToFuncRefTable = false :=
      forall₂_congr fun x _ => by cases x.2.storesToFuncRefTable <;> simp
    simp only [ErasesTableStores, htable, Bool.false_eq_true, if_false, hcount]
    constructor
    · rintro ⟨_, _, _, _, _, h⟩
      exact h
    · intro h
      have hnone : M.getGlobalVariable "FUNCREF_TABLE" = none := by simpa using htable
      refine ⟨M, by simp [replaceFUNCREF_TABLE, hnone], ?_, fun _ _ => rfl, rfl, h⟩
      rw [Function.eraseInstrs_eq_self h, hf]

/-- What `wasm_rt_allocate_funcref_table` does to a table, in a function of its own. -/
def allocateTableFunction : Function where
  name := "w2c_squanchy_f0"
  params := [.ptr]
  body := some ⟨"entry", .instr (.simple (.store .ptr (.global "FUNCREF_TABLE") (.arg 0 0)))
    (.instr (.term (.ret none)) .stop), rfl⟩

def allocateTableModule : Module where
  functions := [allocateTableFunction]
  globals := [{ name := "FUNCREF_TABLE", initializer := none }]

theorem erasesTableStores_iff_allocateTable :
    ErasesTableStores allocateTableModule "w2c_squanchy_f0" allocateTableFunction ↔
      ∀ x ∈ allocateTableFunction.instrs,
        if (allocateTableModule.getGlobalVariable "FUNCREF_TABLE").isSome then
          x.2.storesFuncRefTableItself = x.2.storesDeepInFuncRefTable
        else x.2.storesToFuncRefTable = false :=
  erasesTableStores_iff rfl

/-- The store of the table's address into the table object is deleted. -/
theorem store_of_table_address_is_erased : ¬ ∀ M F f, M.getFunction F = some f →
    ErasesTableStores M F f := by
  intro hall
  obtain ⟨M', _, _, _, _, hcount⟩ :=
    hall allocateTableModule "w2c_squanchy_f0" allocateTableFunction rfl
  have hstore := hcount (0, .simple (.store .ptr (.global "FUNCREF_TABLE") (.arg 0 0)))
    List.mem_cons_self
  exact absurd hstore (by decide)

end Squanchy
