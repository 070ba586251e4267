import Squanchy.IR.Syntax

/-!
# Inlining until no marked call is left

`inlineFunctions` collects the calls of a function to defined functions that carry
`AlwaysInline`, hands each of them to LLVM's `InlineFunction`, and starts again until a
round collects nothing. The calls of a round are kept in a set ordered by address, so a
schedule is free to choose the order of every round; a call is named by its place in the
body, which inlining another call never moves. A callee is copied as it stands at that
moment, and this is the partly inlined body itself when a function calls itself.
-/

namespace Squanchy

/-- From one node of a body to the code after it, or into an inlined copy. -/
inductive Dir where
  | next | down
  deriving DecidableEq, Repr

abbrev Path := List Dir

namespace Code

/-- The call at a place of a body. -/
def callAt : Path → Code → Option CallBase
  | [], .instr (.call c) _ => some c
  | .next :: p, .label _ k => k.callAt p
  | .next :: p, .instr _ k => k.callAt p
  | .next :: p, .inlined _ _ _ k => k.callAt p
  | .down :: p, .inlined _ _ b _ => b.callAt p
  | _, _ => none

/-- The places of the calls that satisfy `q`, in the order of `inst_begin`/`inst_end`. -/
def callSites (q : CallBase → Bool) : Code → List Path
  | .stop => []
  | .label _ k => (k.callSites q).map (.next :: ·)
  | .instr (.call c) k => (if q c then [[]] else []) ++ (k.callSites q).map (.next :: ·)
  | .instr _ k => (k.callSites q).map (.next :: ·)
  | .inlined _ _ b k => (b.callSites q).map (.down :: ·) ++ (k.callSites q).map (.next :: ·)

/-- LLVM's `InlineFunction`: the call becomes a copy of the callee's present body. It is only
asked to inline calls that have the type of their callee. -/
def inlineFunction (bodyOf : String → Option Body) : Path → Code → Code
  | [], .instr (.call c) k =>
    match c.namedCallee.bind bodyOf with
    | some b => .inlined c.dst c.args b.code k
    | none => .instr (.call c) k
  | .next :: p, .label l k => .label l (k.inlineFunction bodyOf p)
  | .next :: p, .instr i k => .instr i (k.inlineFunction bodyOf p)
  | .next :: p, .inlined d a b k => .inlined d a b (k.inlineFunction bodyOf p)
  | .down :: p, .inlined d a b k => .inlined d a (b.inlineFunction bodyOf p) k
  | _, c => c

/-! ## Operands stay in scope -/

/-- A condition passes to code at another depth when it does so at every scope. -/
theorem all_imp {p p' : Nat → Operand → Bool} {q : Nat → Nat → Bool} {d d' : Nat} {c : Code}
    (hp : ∀ k o, p (d + k) o = true → p' (d' + k) o = true)
    (hq : ∀ k x, q (d + k) x = true → q (d' + k) x = true) (hc : c.all p q d = true) :
    c.all p' q d' = true := by
  induction c generalizing d d' with
  | stop => rfl
  | label l k ih => exact ih hp hq hc
  | instr i k ih =>
    simp only [all, Bool.and_eq_true, List.all_eq_true, Option.all_eq_true] at hc ⊢
    exact ⟨⟨fun o ho => hp 0 o (hc.1.1 o ho), fun x hx => hq 0 x (hc.1.2 x hx)⟩, ih hp hq hc.2⟩
  | inlined dst args b k ihb ihk =>
    have hb : ∀ k o, p (d + 1 + k) o = true → p' (d' + 1 + k) o = true := by
      simpa only [Nat.add_assoc] using fun k => hp (1 + k)
    have hb' : ∀ k x, q (d + 1 + k) x = true → q (d' + 1 + k) x = true := by
      simpa only [Nat.add_assoc] using fun k => hq (1 + k)
    simp only [all, Bool.and_eq_true, List.all_eq_true, Option.all_eq_true] at hc ⊢
    exact ⟨⟨⟨fun o ho => hp 0 o (hc.1.1.1 o ho), fun x hx => hq 0 x (hc.1.1.2 x hx)⟩,
      ihb hb hb' hc.1.2⟩, ihk hp hq hc.2⟩

theorem inScope_mono {d d' : Nat} (h : d ≤ d') {c : Code} (hc : c.inScope d = true) :
    c.inScope d' = true := by
  refine all_imp (fun k o ho => ?_) (fun _ _ h => h) hc
  cases o <;> simp only [Operand.inScope, decide_eq_true_eq] at ho ⊢ <;> omega

/-- What holds of the code and of every copy holds once a call is inlined. -/
theorem all_inlineFunction {bodyOf : String → Option Body} {p : Nat → Operand → Bool}
    {q : Nat → Nat → Bool} (hcopy : ∀ (b : Body) d, b.code.all p q (d + 1) = true) (path : Path)
    {c : Code} {d : Nat} (hc : c.all p q d = true) :
    (c.inlineFunction bodyOf path).all p q d = true := by
  fun_induction inlineFunction bodyOf path c generalizing d with
  | case1 c k b hb =>
    simp only [all, Bool.and_eq_true, Instr.operands, CallBase.operands, List.all_append,
      Instr.dst] at hc ⊢
    exact ⟨⟨⟨hc.1.1.1, hc.1.2⟩, hcopy b d⟩, hc.2⟩
  | case2 => exact hc
  | case3 path l k ih => exact ih hc
  | case4 path i k ih =>
    simp only [all, Bool.and_eq_true] at hc ⊢
    exact ⟨hc.1, ih hc.2⟩
  | case5 path dst args b k ih =>
    simp only [all, Bool.and_eq_true] at hc ⊢
    exact ⟨hc.1, ih hc.2⟩
  | case6 path dst args b k ih =>
    simp only [all, Bool.and_eq_true] at hc ⊢
    exact ⟨⟨hc.1.1, ih hc.1.2⟩, hc.2⟩
  | case7 => exact hc

theorem inScope_inlineFunction (bodyOf : String → Option Body) (p : Path) {c : Code} {d : Nat}
    (hc : c.inScope d = true) : (c.inlineFunction bodyOf p).inScope d = true :=
  all_inlineFunction (fun b _ => inScope_mono (Nat.zero_le _) b.closed) p hc

/-! ## What inlining one call changes -/

theorem mem_callSites {q : CallBase → Bool} {p : Path} {c : Code} :
    p ∈ c.callSites q ↔ ∃ call, c.callAt p = some call ∧ q call = true := by
  induction c generalizing p with
  | stop => simp [callSites, callAt]
  | label l k ih =>
    rcases p with _ | ⟨_ | _, p⟩ <;> simp [callSites, callAt, ih]
  | instr i k ih =>
    rcases i with s | c | t <;> rcases p with _ | ⟨_ | _, p⟩ <;>
      simp [callSites, callAt, ih]
  | inlined dst args b k ihb ihk =>
    rcases p with _ | ⟨_ | _, p⟩ <;> simp [callSites, callAt, ihb, ihk]

theorem nodup_callSites (q : CallBase → Bool) (c : Code) : (c.callSites q).Nodup := by
  have cons (d : Dir) : Function.Injective (fun p : Path => d :: p) :=
    fun _ _ h => (List.cons.inj h).2
  induction c with
  | stop => exact List.nodup_nil
  | label l k ih => exact ih.map (cons .next)
  | instr i k ih =>
    rcases i with s | c | t
    · exact ih.map (cons .next)
    · simp only [callSites]
      split
      · exact List.nodup_cons.mpr ⟨by simp, ih.map (cons .next)⟩
      · exact ih.map (cons .next)
    · exact ih.map (cons .next)
  | inlined dst args b k ihb ihk =>
    refine List.Nodup.append (ihb.map (cons .down)) (ihk.map (cons .next)) ?_
    simp [List.disjoint_left]

/-- A call at another place stays where it is. -/
theorem callAt_inlineFunction_of_ne {bodyOf : String → Option Body} {p q : Path} {c : Code}
    {call : CallBase} (hp : c.callAt p = some call) (hne : p ≠ q) :
    (c.inlineFunction bodyOf q).callAt p = some call := by
  fun_induction inlineFunction bodyOf q c generalizing p with
  | case1 c k b hb => rcases p with _ | ⟨_ | _, p⟩ <;> grind [callAt]
  | case2 | case7 => exact hp
  | case3 q l k ih => rcases p with _ | ⟨_ | _, p⟩ <;> grind [callAt]
  | case4 q i k ih =>
    rcases p with _ | ⟨_ | _, p⟩
    · cases i <;> grind [callAt]
    · grind [callAt]
    · simp [callAt] at hp
  | case5 q dst args b k ih => rcases p with _ | ⟨_ | _, p⟩ <;> grind [callAt]
  | case6 q dst args b k ih => rcases p with _ | ⟨_ | _, p⟩ <;> grind [callAt]

/-- The copy holds the calls of the callee's body. -/
theorem callAt_inlineFunction_down {bodyOf : String → Option Body} {q r : Path} {c : Code}
    {site : CallBase} {g : String} {b : Body} (hq : c.callAt q = some site)
    (hg : site.namedCallee = some g) (hb : bodyOf g = some b) :
    (c.inlineFunction bodyOf q).callAt (q ++ .down :: r) = b.code.callAt r := by
  induction c generalizing q with
  | stop => simp [callAt] at hq
  | label l k ih =>
    rcases q with _ | ⟨_ | _, q⟩
    · simp [callAt] at hq
    · exact ih hq
    · simp [callAt] at hq
  | instr i k ih =>
    rcases q with _ | ⟨_ | _, q⟩
    · cases i <;> grind [callAt, inlineFunction]
    · exact ih hq
    · simp [callAt] at hq
  | inlined dst args b' k ihb ihk =>
    rcases q with _ | ⟨_ | _, q⟩
    · simp [callAt] at hq
    · exact ihk hq
    · exact ihb hq

/-- Every call after inlining was there before, at another place, or stands in the copy of
the callee's body. -/
theorem callAt_inlineFunction {bodyOf : String → Option Body} {p q : Path} {c : Code}
    {call site : CallBase} {g : String} {b : Body} (hq : c.callAt q = some site)
    (hg : site.namedCallee = some g) (hb : bodyOf g = some b)
    (hp : (c.inlineFunction bodyOf q).callAt p = some call) :
    (p ≠ q ∧ c.callAt p = some call) ∨
      ∃ r, p = q ++ .down :: r ∧ b.code.callAt r = some call := by
  induction c generalizing p q with
  | stop => simp [callAt] at hq
  | label l k ih =>
    rcases q with _ | ⟨_ | _, q⟩ <;> rcases p with _ | ⟨_ | _, p⟩ <;>
      simp [callAt, inlineFunction] at hq hp
    simpa [callAt] using ih hq hp
  | instr i k ih =>
    rcases q with _ | ⟨_ | _, q⟩
    · -- the site itself: below the copy lies the callee's body, after it the old code
      rcases i with s | c | t <;> simp [callAt] at hq
      subst hq
      rcases p with _ | ⟨_ | _, p⟩ <;> simp [inlineFunction, hg, hb, callAt] at hp
      · exact .inl ⟨by simp, hp⟩
      · exact .inr ⟨p, rfl, hp⟩
    · rcases p with _ | ⟨_ | _, p⟩
      · cases i with
        | simple s => simp [callAt, inlineFunction] at hp
        | call c => exact .inl ⟨by simp, hp⟩
        | term t => simp [callAt, inlineFunction] at hp
      · simpa [callAt] using ih hq hp
      · simp [callAt, inlineFunction] at hp
    · simp [callAt] at hq
  | inlined dst args b' k ihb ihk =>
    rcases q with _ | ⟨_ | _, q⟩
    · simp [callAt] at hq
    · rcases p with _ | ⟨_ | _, p⟩
      · simp [callAt, inlineFunction] at hp
      · simpa [callAt] using ihk hq hp
      · exact .inl ⟨by simp, hp⟩
    · rcases p with _ | ⟨_ | _, p⟩
      · simp [callAt, inlineFunction] at hp
      · exact .inl ⟨by simp, hp⟩
      · simpa [callAt] using ihb hq hp

/-- Nothing stands inside a call that is not inlined. -/
theorem callAt_append_down {q r : Path} {c : Code} {site : CallBase}
    (hq : c.callAt q = some site) : c.callAt (q ++ .down :: r) = none := by
  induction c generalizing q with
  | stop => simp [callAt] at hq
  | label l k ih =>
    rcases q with _ | ⟨_ | _, q⟩
    · simp [callAt] at hq
    · exact ih hq
    · simp [callAt] at hq
  | instr i k ih =>
    rcases q with _ | ⟨_ | _, q⟩
    · cases i <;> simp [callAt]
    · exact ih hq
    · simp [callAt] at hq
  | inlined dst args b k ihb ihk =>
    rcases q with _ | ⟨_ | _, q⟩
    · simp [callAt] at hq
    · exact ihk hq
    · exact ihb hq

theorem callAt_inlineFunction_iff {bodyOf : String → Option Body} {p q : Path} {c : Code}
    {call site : CallBase} {g : String} {b : Body} (hq : c.callAt q = some site)
    (hg : site.namedCallee = some g) (hb : bodyOf g = some b) :
    (c.inlineFunction bodyOf q).callAt p = some call ↔
      (p ≠ q ∧ c.callAt p = some call) ∨
        ∃ r, p = q ++ .down :: r ∧ b.code.callAt r = some call := by
  constructor
  · exact callAt_inlineFunction hq hg hb
  · rintro (⟨hne, hp⟩ | ⟨r, rfl, hr⟩)
    · exact callAt_inlineFunction_of_ne hp hne
    · exact (callAt_inlineFunction_down hq hg hb).trans hr

end Code

/-! ## The loop -/

/-- The test of `inlineFunctions` on a call: not inline asm, and the called function is
known, carries `AlwaysInline` and has a body. -/
def CallBase.inlinable (M : Module) (c : CallBase) : Bool :=
  c.isCallInst && !c.isInlineAsm &&
    ((c.getCalledFunction M).bind M.getFunction).any fun f =>
      f.hasFnAttribute .alwaysInline && !f.isDeclaration

def Body.inlineFunction (bodyOf : String → Option Body) (p : Path) (b : Body) : Body :=
  b.withCode (b.code.inlineFunction bodyOf p) (Code.inScope_inlineFunction bodyOf p b.closed)

/-- The order in which each round walks its set of calls. -/
structure Schedule where
  order : Nat → List Path → List Path
  perm : ∀ round sites, (order round sites).Perm sites

/-- Inline the collected calls of `F` one after the other. Where `InlineFunction` reports
failure the call is left alone; its answer is not looked at. -/
def inlineRound (M : Module) (F : String) (succeeds : Path → Bool) (sites : List Path)
    (b : Body) : Body :=
  sites.foldl (fun b p =>
    if succeeds p then b.inlineFunction (M.setBody F b).bodyOf p else b) b

/-- The `do ... while (Changes)` loop, `round` counting the rounds made so far. -/
def inlineLoop (s : Schedule) (succeeds : Nat → Path → Bool) (M : Module) (F : String) :
    Nat → Nat → Body → Option Body
  | 0, _, _ => none
  | fuel + 1, round, b =>
    let FuncToInline := b.code.callSites (·.inlinable M)
    let b' := inlineRound M F (succeeds round) (s.order round FuncToInline) b
    if FuncToInline.length = 0 then some b'
    else inlineLoop s succeeds M F fuel (round + 1) b'

/-- What inlining a call keeps, a round keeps. `P` may also speak of the calls that the round has
yet to come to. -/
theorem inlineRound_keeps {M : Module} {F : String} {succeeds : Path → Bool}
    {P : List Path → Body → Prop}
    (hinline : ∀ p sites b, P (p :: sites) b →
      P sites (b.inlineFunction (M.setBody F b).bodyOf p))
    (hrefuse : ∀ p sites b, P (p :: sites) b → P sites b) {sites : List Path} {b : Body}
    (h : P sites b) : P [] (inlineRound M F succeeds sites b) := by
  induction sites generalizing b with
  | nil => exact h
  | cons p sites ih =>
    simp only [inlineRound, List.foldl_cons]
    split
    · exact ih (hinline p sites b h)
    · exact ih (hrefuse p sites b h)

/-- What every round keeps, the loop keeps. -/
theorem inlineLoop_keeps {s : Schedule} {succeeds : Nat → Path → Bool} {M : Module} {F : String}
    {P : Body → Prop}
    (hround : ∀ round b, P b → P (inlineRound M F (succeeds round)
      (s.order round (b.code.callSites (·.inlinable M))) b))
    {fuel round : Nat} {b b' : Body} (h : P b)
    (hloop : inlineLoop s succeeds M F fuel round b = some b') : P b' := by
  induction fuel generalizing b round with
  | zero => cases hloop
  | succ fuel ih =>
    simp only [inlineLoop] at hloop
    split at hloop
    · obtain rfl := Option.some.inj hloop
      exact hround round b h
    · exact ih (hround round b h) hloop

/-- `inlineFunctions`; a function without a body has nothing to inline. -/
def inlineFunctions (s : Schedule) (succeeds : Nat → Path → Bool) (M : Module) (F : String)
    (fuel : Nat) : Option Module :=
  match M.bodyOf F with
  | none => some M
  | some b => (inlineLoop s succeeds M F fuel 0 b).map (M.setBody F)

/-- A defined function that carries `AlwaysInline`. -/
def Module.Inlinee (M : Module) (g : String) : Prop :=
  ∃ f, M.getFunction g = some f ∧ .alwaysInline ∈ f.attrs ∧ f.body.isSome = true

theorem Module.Inlinee.bodyOf {M : Module} {g : String} (h : M.Inlinee g) :
    ∃ b, M.bodyOf g = some b := by
  obtain ⟨f, hf, _, hb⟩ := h
  obtain ⟨b, hb⟩ := Option.isSome_iff_exists.mp hb
  exact ⟨b, by simp [Module.bodyOf, hf, hb]⟩

theorem CallBase.inlinable_iff {M : Module} {c : CallBase} :
    c.inlinable M = true ↔
      c.isCallInst = true ∧ ∃ g, c.getCalledFunction M = some g ∧ M.Inlinee g := by
  have asm : ∀ g, c.getCalledFunction M = some g → c.isInlineAsm = false := by
    intro g hg
    simp [isInlineAsm, (getCalledFunction_eq_some.mp hg).1]
  constructor
  · intro h
    simp only [inlinable, Bool.and_eq_true, Option.any_eq_true] at h
    obtain ⟨⟨hcall, _⟩, f, hf, hattr, hbody⟩ := h
    obtain ⟨g, hg, hgf⟩ := Option.bind_eq_some_iff.mp hf
    refine ⟨hcall, g, hg, f, hgf, by simpa [Function.hasFnAttribute] using hattr, ?_⟩
    cases hb : f.body <;> grind [Function.isDeclaration]
  · rintro ⟨hcall, g, hg, f, hf, hattr, hbody⟩
    simp [inlinable, hcall, asm g hg, hg, hf, Function.hasFnAttribute, hattr,
      Function.isDeclaration, hbody]

end Squanchy
