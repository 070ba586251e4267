import Squanchy.Library.Except

/-!
# Clients and servers

A server answers requests from its state, or fails, which ends the session. A client sends one
request after the other, and decides on each by all answers so far. What is shown of one request
then holds of whole sessions, with any client: two servers that answer alike from related states
cannot be told apart, and a client that asks for nothing improper while it is served well is
served well throughout.
-/

namespace Squanchy.Library

variable {ρ α ε ε' μ ν : Type}

/-- An answer with the state after it, or a failure. -/
abbrev Server (ρ α ε μ : Type) := ρ → μ → Except ε (α × μ)

/-- The next request, if any, by the requests so far and their answers. -/
abbrev Client (ρ α : Type) := List (ρ × α) → Option ρ

/-- These requests one after the other, whatever the answers. -/
def Client.inTurn (requests : List ρ) : Client ρ α := fun answered => requests[answered.length]?

/-- What was answered, and the state after it or the request that failed. -/
structure Session (ρ α ε μ : Type) where
  answered : List (ρ × α)
  state : Except (ρ × ε) μ

/-- At most `n` more requests. -/
def Server.session (S : Server ρ α ε μ) (c : Client ρ α) :
    Nat → List (ρ × α) → μ → Session ρ α ε μ
  | 0, answered, m => ⟨answered, .ok m⟩
  | n + 1, answered, m =>
    match c answered with
    | none => ⟨answered, .ok m⟩
    | some r =>
      match S r m with
      | .error e => ⟨answered, .error (r, e)⟩
      | .ok (a, m') => S.session c n (answered ++ [(r, a)]) m'

section Steps

variable {S : Server ρ α ε μ} {c : Client ρ α} {n : Nat} {answered : List (ρ × α)} {m m' : μ}
  {r : ρ} {a : α} {e : ε}

theorem Server.session_done (h : c answered = none) :
    S.session c (n + 1) answered m = ⟨answered, .ok m⟩ := by
  simp [session, h]

theorem Server.session_fails (h : c answered = some r) (hr : S r m = .error e) :
    S.session c (n + 1) answered m = ⟨answered, .error (r, e)⟩ := by
  simp [session, h, hr]

theorem Server.session_answers (h : c answered = some r) (hr : S r m = .ok (a, m')) :
    S.session c (n + 1) answered m = S.session c n (answered ++ [(r, a)]) m' := by
  simp [session, h, hr]

end Steps

/-! ## Servers that answer alike -/

/-- Both succeed, with related values, or both fail, with related errors. -/
inductive Matches (E : ε → ε' → Prop) (R : μ → ν → Prop) : Except ε μ → Except ε' ν → Prop where
  | ok {m : μ} {w : ν} : R m w → Matches E R (.ok m) (.ok w)
  | error {e : ε} {e' : ε'} : E e e' → Matches E R (.error e) (.error e')

theorem Matches.bind {κ κ' : Type} {E : ε → ε' → Prop} {R : μ → ν → Prop}
    {Q : κ → κ' → Prop} {x : Except ε μ} {y : Except ε' ν} {f : μ → Except ε κ}
    {g : ν → Except ε' κ'} (h : Matches E R x y) (hf : ∀ m w, R m w → Matches E Q (f m) (g w)) :
    Matches E Q (x >>= f) (y >>= g) := by
  cases h with
  | ok hmw => exact hf _ _ hmw
  | error he => exact .error he

theorem Matches.map {κ κ' : Type} {E : ε → ε' → Prop} {R : μ → ν → Prop} {Q : κ → κ' → Prop}
    {x : Except ε μ} {y : Except ε' ν} {f : μ → κ} {g : ν → κ'} (h : Matches E R x y)
    (hf : ∀ m w, R m w → Q (f m) (g w)) : Matches E Q (f <$> x) (g <$> y) := by
  cases h with
  | ok hmw => exact .ok (hf _ _ hmw)
  | error he => exact .error he

/-- From related states, both answer alike and go on in related states, or both fail. -/
def Server.Refines (S : Server ρ α ε μ) (S' : Server ρ α ε' ν) (E : ρ → ε → ε' → Prop)
    (R : μ → ν → Prop) : Prop :=
  ∀ r m w, R m w → Matches (E r) (fun x y => x.1 = y.1 ∧ R x.2 y.2) (S r m) (S' r w)

/-- The same answers, and related ends. -/
structure Session.Related (E : ρ → ε → ε' → Prop) (R : μ → ν → Prop) (s : Session ρ α ε μ)
    (t : Session ρ α ε' ν) : Prop where
  answered : s.answered = t.answered
  state : Matches (fun e e' => e.1 = e'.1 ∧ E e.1 e.2 e'.2) R s.state t.state

/-- No client can tell a server from one that it refines. -/
theorem Server.Refines.session {S : Server ρ α ε μ} {S' : Server ρ α ε' ν}
    {E : ρ → ε → ε' → Prop} {R : μ → ν → Prop} (h : S.Refines S' E R) (c : Client ρ α) (n : Nat)
    (answered : List (ρ × α)) {m : μ} {w : ν} (hmw : R m w) :
    (S.session c n answered m).Related E R (S'.session c n answered w) := by
  induction n generalizing answered m w with
  | zero => exact ⟨rfl, .ok hmw⟩
  | succ n ih =>
    cases hr : c answered with
    | none =>
      rw [Server.session_done hr, Server.session_done hr]
      exact ⟨rfl, .ok hmw⟩
    | some r =>
      have hsame := h r m w hmw
      generalize hx : S r m = x at hsame
      generalize hy : S' r w = y at hsame
      cases hsame with
      | error he =>
        rw [Server.session_fails hr hx, Server.session_fails hr hy]
        exact ⟨rfl, .error ⟨rfl, he⟩⟩
      | @ok x y hxy =>
        rw [Server.session_answers hr hx, Server.session_answers hr hy, hxy.1]
        exact ih _ hxy.2

/-! ## Servers that serve well -/

/-- From a good state, a proper request is answered well, in a good state again, or fails as it
may. -/
def Server.Ensures (S : Server ρ α ε μ) (Inv : μ → Prop) (Proper : ρ → Prop)
    (Post : ρ → α → Prop) (Fail : ρ → ε → Prop) : Prop :=
  ∀ r m, Inv m → Proper r → Ends (fun x => Post r x.1 ∧ Inv x.2) (Fail r) (S r m)

/-- The client is proper, as long as it is served well. -/
def Client.Behaves (c : Client ρ α) (Proper : ρ → Prop) (Post : ρ → α → Prop) : Prop :=
  ∀ answered r, (∀ x ∈ answered, Post x.1 x.2) → c answered = some r → Proper r

/-- Every answer is good, and so is the end. -/
structure Session.Good (Inv : μ → Prop) (Post : ρ → α → Prop) (Fail : ρ → ε → Prop)
    (s : Session ρ α ε μ) : Prop where
  answered : ∀ x ∈ s.answered, Post x.1 x.2
  state : ∀ m, s.state = .ok m → Inv m
  fails : ∀ r e, s.state = .error (r, e) → Fail r e

/-- What a server ensures, those that refine it ensure as well. -/
theorem Server.Refines.ensures {S : Server ρ α ε μ} {S' : Server ρ α ε' ν}
    {E : ρ → ε → ε' → Prop} {R : μ → ν → Prop} (h : S.Refines S' E R) {Inv : ν → Prop}
    {Proper : ρ → Prop} {Post : ρ → α → Prop} {Fail : ρ → ε' → Prop}
    (hS' : S'.Ensures Inv Proper Post Fail) :
    S.Ensures (fun m => ∃ w, R m w ∧ Inv w) Proper Post
      (fun r e => ∃ e', E r e e' ∧ Fail r e') := by
  rintro r m ⟨w, hmw, hw⟩ hr
  have hends := hS' r w hw hr
  have hsame := h r m w hmw
  generalize S r m = x at hsame ⊢
  generalize S' r w = y at hsame hends
  cases hsame with
  | ok hxy => exact ⟨hxy.1 ▸ hends.1, _, hxy.2, hends.2⟩
  | error he => exact ⟨_, he, hends⟩

section Good

variable {Inv : μ → Prop} {Post : ρ → α → Prop} {Fail : ρ → ε → Prop} {answered : List (ρ × α)}

theorem Session.Good.of_ok (h : ∀ x ∈ answered, Post x.1 x.2) {m : μ} (hm : Inv m) :
    Session.Good Inv Post Fail ⟨answered, .ok m⟩ where
  answered := h
  state _ hm' := Except.ok.inj hm' ▸ hm
  fails _ _ he := by cases he

theorem Session.Good.of_error (h : ∀ x ∈ answered, Post x.1 x.2) {r : ρ} {e : ε}
    (he : Fail r e) : Session.Good Inv Post Fail ⟨answered, .error (r, e)⟩ where
  answered := h
  state _ hm := by cases hm
  fails _ _ he' := by
    obtain ⟨rfl, rfl⟩ := Prod.mk.inj (Except.error.inj he')
    exact he

theorem Session.Good.imp {Inv' : μ → Prop} {Fail' : ρ → ε → Prop} {s : Session ρ α ε μ}
    (h : s.Good Inv Post Fail) (hInv : ∀ m, Inv m → Inv' m) (hFail : ∀ r e, Fail r e → Fail' r e) :
    s.Good Inv' Post Fail' where
  answered := h.answered
  state m hm := hInv m (h.state m hm)
  fails r e he := hFail r e (h.fails r e he)

end Good

/-- A client that behaves is served well throughout. -/
theorem Server.Ensures.session {S : Server ρ α ε μ} {Inv : μ → Prop} {Proper : ρ → Prop}
    {Post : ρ → α → Prop} {Fail : ρ → ε → Prop} (h : S.Ensures Inv Proper Post Fail)
    {c : Client ρ α} (hc : c.Behaves Proper Post) (n : Nat) {answered : List (ρ × α)} {m : μ}
    (hgood : ∀ x ∈ answered, Post x.1 x.2) (hm : Inv m) :
    (S.session c n answered m).Good Inv Post Fail := by
  induction n generalizing answered m with
  | zero => exact .of_ok hgood hm
  | succ n ih =>
    cases hr : c answered with
    | none =>
      rw [Server.session_done hr]
      exact .of_ok hgood hm
    | some r =>
      have hends := h r m hm (hc answered r hgood hr)
      cases hx : S r m with
      | error e =>
        rw [hx] at hends
        rw [Server.session_fails hr hx]
        exact .of_error hgood hends
      | ok x =>
        rw [hx] at hends
        obtain ⟨hpost, hinv⟩ := hends
        rw [Server.session_answers hr hx]
        refine ih (fun y hy => ?_) hinv
        rcases List.mem_append.mp hy with hy | hy
        · exact hgood y hy
        · obtain rfl := List.mem_singleton.mp hy
          exact hpost

end Squanchy.Library
