import Squanchy.IR.Semantics

/-!
# Blocks that a run is not given

Code gets at a block only through a pointer into it. Where no value of the frame and no cell
outside of a set of blocks points into it, and neither the instructions that compute nor the
functions outside the module make up such a pointer, a run neither touches these blocks nor
passes a pointer into them on. One value of the frame may be left out, argument 0 of the
outermost scope, if the code that runs there does not use it.
-/

namespace Squanchy

open Library

/-! ## Values, heaps and machines -/

/-- The address is in none of the blocks. -/
def Addr.Avoids (B : Set Nat) (a : Addr) : Prop := ∀ b ∈ B, a.1 ≠ .block b

/-- The value is no pointer into one of the blocks. -/
def Val.Avoids (B : Set Nat) (v : Val) : Prop := ∀ b ∈ B, ∀ off, v ≠ .ptr (.block b) off

/-- The blocks have been allocated, and nothing outside of them points into them. -/
structure Heap.Avoids (B : Set Nat) (h : Heap) : Prop where
  allocated : ∀ b ∈ B, b < h.next
  mem : ∀ a : Addr, a.Avoids B → (h.mem a).Avoids B

/-- The host function makes up no pointer into the blocks and does not get at them by itself. -/
structure Host.Honest (B : Set Nat) (x : Host) : Prop where
  reads : ∀ args h, (∀ v ∈ args, v.Avoids B) → h.Avoids B → ∀ a ∈ x.reads args h, a.Avoids B
  effect : ∀ args h e, (∀ v ∈ args, v.Avoids B) → h.Avoids B → x.effect args h = some e →
    e.value.Avoids B ∧ ∀ w ∈ e.writes, w.1.Avoids B ∧ w.2.Avoids B

structure Machine.Honest (B : Set Nat) (m : Machine) : Prop where
  encode : ∀ ty v, v.Avoids B → ∀ w ∈ m.encode ty v, w.Avoids B
  decode : ∀ ty vs, (∀ v ∈ vs, v.Avoids B) → (m.decode ty vs).Avoids B
  pure : ∀ opcode vs v, (∀ w ∈ vs, w.Avoids B) → m.pure opcode vs = some v → v.Avoids B
  host : ∀ g, (m.host g).Honest B
  asm : ∀ t, (m.asm t).Honest B

def Event.Avoids (B : Set Nat) : Event → Prop
  | .call _ _ args => ∀ v ∈ args, v.Avoids B
  | .member _ base => base.Avoids B
  | .read at_ | .write _ at_ => ∀ a ∈ at_, a.Avoids B
  | .fault _ => True

theorem avoids_undefined (B : Set Nat) : Val.undefined.Avoids B := fun _ _ _ => by simp

namespace Heap.Avoids

variable {B : Set Nat} {h : Heap}

theorem alloc (hh : h.Avoids B) : h.alloc.Avoids B where
  allocated b hb := (hh.allocated b hb).trans (Nat.lt_succ_self _)
  mem a ha := by
    simp only [Heap.alloc]
    split
    · exact avoids_undefined B
    · exact hh.mem a ha

theorem writes (hh : h.Avoids B) {ws : List (Addr × Val)} (hws : ∀ w ∈ ws, w.2.Avoids B) :
    (h.writes ws).Avoids B where
  allocated := hh.allocated
  mem := by
    suffices hall : ∀ m : Addr → Val, (∀ a : Addr, a.Avoids B → (m a).Avoids B) →
        ∀ a : Addr, a.Avoids B →
          (ws.foldl (fun m w => Function.update m w.1 w.2) m a).Avoids B from hall _ hh.mem
    induction ws with
    | nil => exact fun _ hm => hm
    | cons w ws ih =>
      intro m hm
      refine ih (fun x hx => hws x (List.mem_cons_of_mem _ hx)) _ fun a ha => ?_
      by_cases haw : a = w.1
      · subst haw
        simpa using hws w List.mem_cons_self
      · simpa [Function.update_of_ne haw] using hm a ha

end Heap.Avoids

/-! ## Frames -/

/-- No value of the frame points into the blocks, but for argument 0 of the outermost scope where
that is left out. -/
def Frame.Avoids (B : Set Nat) (exempt : Bool) (fr : Frame) : Prop :=
  ∀ up s, fr[up]? = some s → (∀ x, (s.regs x).Avoids B) ∧
    ∀ i v, s.args[i]? = some v → (exempt = true ∧ up + 1 = fr.length ∧ i = 0) ∨ v.Avoids B

/-- The code, `d` scopes further in than the outermost one, has no use for parameter 0 of that. -/
def Code.SparesArg0 (d : Nat) (c : Code) : Prop :=
  c.all (fun d o => decide (o ≠ .arg d 0)) (fun _ _ => true) d = true

namespace Frame.Avoids

variable {B : Set Nat} {exempt : Bool} {fr : Frame}

theorem enter {args : List Val} (hargs : ∀ v ∈ args, v.Avoids B) :
    Frame.Avoids B exempt [Scope.enter args] := by
  intro up s hs
  obtain ⟨rfl, rfl⟩ : up = 0 ∧ Scope.enter args = s := by
    cases up <;> simp_all
  exact ⟨fun _ => avoids_undefined B, fun i v hv => .inr (hargs v (List.mem_of_getElem? hv))⟩

theorem push (hfr : fr.Avoids B exempt) {args : List Val} (hargs : ∀ v ∈ args, v.Avoids B) :
    Frame.Avoids B exempt (Scope.enter args :: fr) := by
  intro up s hs
  cases up with
  | zero =>
    obtain rfl : Scope.enter args = s := by simpa using hs
    exact ⟨fun _ => avoids_undefined B, fun i v hv => .inr (hargs v (List.mem_of_getElem? hv))⟩
  | succ up => simpa using hfr up s (by simpa using hs)

theorem define (hfr : fr.Avoids B exempt) (dst : Option Nat) {v : Val} (hv : v.Avoids B) :
    (fr.define dst v).Avoids B exempt := by
  cases fr with
  | nil => cases dst <;> exact hfr
  | cons s fr =>
    cases dst with
    | none => exact hfr
    | some x =>
      intro up t ht
      cases up with
      | succ up => exact hfr (up + 1) t ht
      | zero =>
        obtain rfl : { s with regs := Function.update s.regs x v } = t := by
          simpa [Frame.define] using ht
        obtain ⟨hregs, hargs⟩ := hfr 0 s rfl
        refine ⟨fun y => ?_, hargs⟩
        by_cases hy : y = x
        · subst hy
          simpa using hv
        · simpa [Function.update_of_ne hy] using hregs y

/-- What the code can name points nowhere into the blocks. -/
theorem eval (hfr : fr.Avoids B exempt) {o : Operand}
    (ho : exempt = true → o ≠ .arg (fr.length - 1) 0) : (o.eval fr).Avoids B := by
  cases o with
  | arg up i =>
    simp only [Operand.eval]
    cases hs : fr[up]? with
    | none => exact avoids_undefined B
    | some s =>
      cases hv : s.args[i]? with
      | none => simpa [hv] using avoids_undefined B
      | some v =>
        obtain ⟨hexempt, hup, rfl⟩ | havoids := (hfr up s hs).2 i v hv
        · exact absurd (by rw [← hup, Nat.add_sub_cancel]) (ho hexempt)
        · simpa [hv] using havoids
  | reg up x =>
    simp only [Operand.eval]
    cases hs : fr[up]? with
    | none => exact avoids_undefined B
    | some s => simpa using (hfr up s hs).1 x
  | _ => exact fun _ => by simp [Operand.eval]

theorem map_eval (hfr : fr.Avoids B exempt) {os : List Operand}
    (hos : exempt = true → ∀ o ∈ os, o ≠ .arg (fr.length - 1) 0) :
    ∀ v ∈ os.map (·.eval fr), v.Avoids B := by
  intro v hv
  obtain ⟨o, ho, rfl⟩ := List.mem_map.mp hv
  exact hfr.eval fun hexempt => hos hexempt o ho

end Frame.Avoids

theorem Code.SparesArg0.after {d : Nat} {c k : Code} {l : String} (h : c.SparesArg0 d)
    (hk : c.after l = some k) : k.SparesArg0 d := by
  refine Code.after_keeps (P := fun c => c.SparesArg0 d) (fun _ _ h => h) ?_ ?_ h hk
  · intro i c h
    simp only [SparesArg0, Code.all, Bool.and_eq_true] at h ⊢
    exact h.2
  · intro dst args b c h
    simp only [SparesArg0, Code.all, Bool.and_eq_true] at h ⊢
    exact h.2

/-! ## Runs -/

/-- No event of the run touches the blocks or shows a pointer into them, and neither does what the
run leaves. -/
abbrev AvoidsIn {α : Type} (B : Set Nat) (Q : α → Prop) (r : Run Traced α) : Prop :=
  r.Ensures (fun e => e.2.Avoids B) Q

/-- A value and a heap. -/
def ResultAvoids (B : Set Nat) (x : Val × Heap) : Prop := x.1.Avoids B ∧ x.2.Avoids B

section Runs

variable {m : Machine} {M : Module} {B : Set Nat} {exempt : Bool}

theorem cells_avoid {l : Loc} {off : Int} {n : Nat} (h : (Val.ptr l off).Avoids B) :
    ∀ a ∈ cells l off n, Addr.Avoids B a := by
  intro a ha b hb hl
  obtain ⟨i, _, rfl⟩ := List.mem_map.mp ha
  exact h b hb off (by rw [show l = .block b from hl])

theorem Simple.step_avoids (hm : m.Honest B) {s : Simple} (fn : String) {fr : Frame} {h : Heap}
    (hfr : fr.Avoids B exempt)
    (hs : exempt = true → ∀ o ∈ s.operands, o ≠ .arg (fr.length - 1) 0) (hh : h.Avoids B) :
    AvoidsIn B (fun x => x.1.Avoids B exempt ∧ x.1.length = fr.length ∧ x.2.Avoids B)
      (s.step m fn fr h) := by
  have heval {o : Operand} (ho : o ∈ s.operands) : (o.eval fr).Avoids B :=
    hfr.eval fun hexempt => hs hexempt o ho
  have hdefine (dst : Nat) {v : Val} (hv : v.Avoids B) {h' : Heap} (hh' : h'.Avoids B) :
      (fr.define (some dst) v).Avoids B exempt ∧
        (fr.define (some dst) v).length = fr.length ∧ h'.Avoids B :=
    ⟨hfr.define _ hv, Frame.length_define _ _ _, hh'⟩
  cases s with
  | alloca dst ty =>
    -- a new block has a number of its own
    refine .pure (hdefine dst (fun b hb off hoff => ?_) hh.alloc)
    obtain rfl : h.next = b := by simpa using (Val.ptr.inj hoff).1
    exact Nat.lt_irrefl _ (hh.allocated _ hb)
  | load dst ty p =>
    have hp := heval (o := p) (by simp [Simple.operands])
    simp only [Simple.step]
    split
    · rename_i l off heq
      rw [heq] at hp
      have hcells := cells_avoid (n := m.size ty) hp
      refine .emit (by simpa [own, Event.Avoids] using hcells) (.pure (hdefine dst ?_ hh))
      refine hm.decode ty _ fun v hv => ?_
      obtain ⟨a, ha, rfl⟩ := List.mem_map.mp hv
      exact hh.mem a (hcells a ha)
    · exact .trap
  | store ty v p =>
    have hp := heval (o := p) (by simp [Simple.operands])
    have hv := heval (o := v) (by simp [Simple.operands])
    simp only [Simple.step]
    split
    · rename_i l off heq
      rw [heq] at hp
      refine .emit (by simpa [own, Event.Avoids] using cells_avoid hp) (.pure ⟨hfr, rfl, ?_⟩)
      exact hh.writes fun w hw => hm.encode ty _ hv w.2 (List.of_mem_zip hw).2
    · exact .emit (by simp [own, Event.Avoids]) .trap
  | gep dst elem base idx =>
    have hbase := heval (o := base) (by simp [Simple.operands])
    refine .emit ?_ (.pure (hdefine dst ?_ hh))
    · cases elem <;> simp [own, Event.Avoids, hbase]
    · cases hv : base.eval fr with
      | ptr l off =>
        rw [hv] at hbase
        intro b hb off' heq
        exact hbase b hb off (by rw [(Val.ptr.inj heq).1])
      | _ => exact avoids_undefined B
  | op dst ty opcode args =>
    simp only [Simple.step]
    split
    · rename_i v heq
      refine .pure (hdefine dst (hm.pure opcode _ v (fun w hw => ?_) heq) hh)
      obtain ⟨o, ho, rfl⟩ := List.mem_map.mp hw
      exact heval ho
    · exact .trap

theorem Host.run_avoids {x : Host} (hx : x.Honest B) {args : List Val} {h : Heap}
    (hargs : ∀ v ∈ args, v.Avoids B) (hh : h.Avoids B) :
    AvoidsIn B (ResultAvoids B) (x.run args h) := by
  refine .emit (by simpa [own, Event.Avoids] using hx.reads args h hargs hh) ?_
  split
  · rename_i e heq
    obtain ⟨hvalue, hwrites⟩ := hx.effect args h e hargs hh heq
    refine .emit ?_ (.pure ⟨hvalue, ?_⟩)
    · intro e' he'
      obtain rfl := List.mem_singleton.mp he'
      intro a ha
      obtain ⟨w, hw, rfl⟩ := List.mem_map.mp ha
      exact (hwrites w hw).1
    · have hleft := hh.writes fun w hw => (hwrites w hw).2
      exact ⟨fun b hb => Nat.lt_add_right _ (hleft.allocated b hb), hleft.mem⟩
  · exact .trap

/-- Code whose frame points nowhere into the blocks runs without them. -/
def Exec.Avoids (B : Set Nat) (e : Exec) : Prop :=
  ∀ exempt fn w k fr h, (exempt = true → w.SparesArg0 (fr.length - 1)) →
    (exempt = true → k.SparesArg0 (fr.length - 1)) → Frame.Avoids B exempt fr → 0 < fr.length →
    h.Avoids B → AvoidsIn B (ResultAvoids B) (e fn w k fr h)

theorem enter_avoids {e : Exec} (hm : m.Honest B) (he : e.Avoids B) (g : String)
    {args : List Val} {h : Heap} (hargs : ∀ v ∈ args, v.Avoids B) (hh : h.Avoids B) :
    AvoidsIn B (ResultAvoids B) (enter m M e g args h) := by
  unfold enter
  split
  · exact he false g _ _ _ _ (by simp) (by simp) (.enter hargs) (by simp) hh
  · exact Host.run_avoids (hm.host g) hargs hh

theorem CallBase.run_avoids {e : Exec} (hm : m.Honest B) (he : e.Avoids B) {c : CallBase}
    {fr : Frame} {h : Heap} (hfr : fr.Avoids B exempt)
    (hc : exempt = true → ∀ o ∈ c.operands, o ≠ .arg (fr.length - 1) 0) (hh : h.Avoids B) :
    AvoidsIn B (ResultAvoids B) (c.run m M e fr h) := by
  have hargs : ∀ v ∈ c.args.map (·.eval fr), v.Avoids B :=
    hfr.map_eval fun hexempt o ho => hc hexempt o (List.mem_append_left _ ho)
  unfold CallBase.run
  dsimp only
  split
  · exact Host.run_avoids (hm.asm _) hargs hh
  · split
    · rename_i g _
      obtain ⟨hevents, hresult⟩ := enter_avoids (M := M) hm he g hargs hh
      refine .emit (by simpa [own, Event.Avoids] using hargs) ⟨?_, hresult⟩
      intro e' he'
      obtain ⟨e'', he'', rfl⟩ := List.mem_map.mp he'
      exact hevents e'' he''
    · exact .trap

theorem Code.run_avoids {e : Exec} (hm : m.Honest B) (he : e.Avoids B) (fn : String)
    {w k : Code} {fr : Frame} {h : Heap} (hw : exempt = true → w.SparesArg0 (fr.length - 1))
    (hk : exempt = true → k.SparesArg0 (fr.length - 1)) (hfr : fr.Avoids B exempt)
    (hlen : 0 < fr.length) (hh : h.Avoids B) :
    AvoidsIn B (ResultAvoids B) (Code.run m M e fn w k fr h) := by
  induction k generalizing fr h with
  | stop => exact .trap
  | label l k ih => exact ih hw hk hfr hlen hh
  | instr i k ih =>
    have hparts : exempt = true → (∀ o ∈ i.operands, o ≠ .arg (fr.length - 1) 0) ∧
        k.SparesArg0 (fr.length - 1) := by
      intro hexempt
      have := hk hexempt
      simp only [SparesArg0, Code.all, Bool.and_eq_true, List.all_eq_true,
        decide_eq_true_eq] at this
      exact ⟨this.1.1, this.2⟩
    rcases i with s | c | t
    · refine (s.step_avoids hm fn hfr (fun hx => (hparts hx).1) hh).bind fun x hx => ?_
      obtain ⟨hfr', hlen', hh'⟩ := hx
      refine ih ?_ ?_ hfr' (hlen' ▸ hlen) hh'
      · rwa [hlen']
      · rw [hlen']
        exact fun hx => (hparts hx).2
    · refine (c.run_avoids hm he hfr (fun hx => (hparts hx).1) hh).bind fun x hx => ?_
      refine ih ?_ ?_ (hfr.define _ hx.1) (by rwa [Frame.length_define]) hx.2
      · rwa [Frame.length_define]
      · rw [Frame.length_define]
        exact fun hx => (hparts hx).2
    · simp only [Code.run]
      split
      · split
        · rename_i k' hk'
          exact he _ _ _ _ _ _ hw (fun hx => (hw hx).after hk') hfr hlen hh
        · exact .trap
      · rename_i v hv
        refine .pure ⟨?_, hh⟩
        cases t with
        | ret o =>
          cases o with
          | none =>
            obtain rfl : Val.undefined = v := by simpa [Terminator.next] using hv
            exact avoids_undefined B
          | some o =>
            obtain rfl : o.eval fr = v := by simpa [Terminator.next] using hv
            exact hfr.eval fun hx => (hparts hx).1 o (by simp [Instr.operands, Terminator.operands])
        | condBr c l r =>
          simp only [Terminator.next] at hv
          split at hv <;> cases hv
        | _ => cases hv
      · exact .trap
  | inlined dst args c k _ ih =>
    have hparts : exempt = true → (∀ o ∈ args, o ≠ .arg (fr.length - 1) 0) ∧
        c.SparesArg0 (fr.length - 1 + 1) ∧ k.SparesArg0 (fr.length - 1) := by
      intro hexempt
      have := hk hexempt
      simp only [SparesArg0, Code.all, Bool.and_eq_true, List.all_eq_true,
        decide_eq_true_eq] at this
      exact ⟨this.1.1.1, this.1.2, this.2⟩
    have hargs : ∀ v ∈ args.map (·.eval fr), v.Avoids B :=
      hfr.map_eval fun hx => (hparts hx).1
    have hdepth : (Scope.enter (args.map (·.eval fr)) :: fr).length - 1 = fr.length - 1 + 1 := by
      rw [List.length_cons]
      omega
    have hcopy : exempt = true →
        c.SparesArg0 ((Scope.enter (args.map (·.eval fr)) :: fr).length - 1) := by
      rw [hdepth]
      exact fun hx => (hparts hx).2.1
    refine (he exempt fn c c _ h hcopy hcopy (hfr.push hargs) (by simp) hh).bind fun x hx => ?_
    refine ih ?_ ?_ (hfr.define _ hx.1) (by rwa [Frame.length_define]) hx.2
    · rwa [Frame.length_define]
    · rw [Frame.length_define]
      exact fun hx => (hparts hx).2.2

end Runs

end Squanchy
