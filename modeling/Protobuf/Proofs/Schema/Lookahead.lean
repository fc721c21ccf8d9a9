import Mathlib
import Protobuf.Proofs.Schema.Lines

/-!
# Looking ahead in a text

Tokens are taken one after the other, and looked at before they are taken, and the tokens that have been
taken are given back, the last one first. All that this comes to is a cursor that goes forth and back over
the tokens of the text.

## Main definitions

* `Session.call` — a call of a lexer that is in use.
* `Cursor.call` — the same call, of a cursor in the text.
* `Session.At` — a lexer in use has a cursor.

## Main results

* `Session.At.call` — a lexer and its cursor answer alike and keep together
* `Session.mapM_call_eq` — a lexer answers as a cursor does that starts at the first token
-/

namespace Protobuf.Schema

/-- The calls that take tokens, look at them and give them back. -/
inductive Call where
  /-- Takes the next token. -/
  | next
  /-- Looks at the next token. -/
  | peek
  /-- Gives back the token that was taken last and is not back yet. -/
  | back
  deriving DecidableEq, Repr

/-- A lexer in use, and the tokens that are not back, the one that was taken last first. -/
structure Session where
  lexer : Lexer
  taken : List Located
  deriving DecidableEq, Repr

/-- A call of a lexer in use. There may be nothing to give back. -/
def Session.call : Call → StateT Session (Except ParseError) (Option Located)
  | .next => fun s => match s.lexer.next with
    | (.ok t, l) => .ok (some t, ⟨l, t :: s.taken⟩)
    | (.error e, _) => .error e
  | .peek => fun s => match s.lexer.peek with
    | (.ok t, l) => .ok (some t, ⟨l, s.taken⟩)
    | (.error e, _) => .error e
  | .back => fun s => match s.taken with
    | t :: more => .ok (none, ⟨s.lexer.pushBack t, more⟩)
    | [] => .ok (none, s)

/-- A call of a cursor, which is the number of the next token. -/
def Cursor.call (source : String) : Call → StateT Nat (Except ParseError) (Option Located)
  | .next => fun n => (Lexer.nth source n).map fun t => (some t, n + 1)
  | .peek => fun n => (Lexer.nth source n).map fun t => (some t, n)
  | .back => fun n => .ok (none, n - 1)

/-- The tokens from number `n` up to number `m` wait in front of the scanner. -/
inductive Lexer.Waits (source : String) : Nat → List Located → Nat → Prop
  | nil (n : Nat) : Waits source n [] n
  | cons {n m : Nat} {t : Located} {more : List Located} (h : nth source n = .ok t)
      (hmore : Waits source (n + 1) more m) : Waits source n (t :: more) m

/-- The first `n` tokens have been taken. -/
inductive Lexer.Taken (source : String) : Nat → List Located → Prop
  | nil : Taken source 0 []
  | cons {n : Nat} {t : Located} {before : List Located} (h : nth source n = .ok t)
      (hbefore : Taken source n before) : Taken source (n + 1) (t :: before)

/-- The token with the number `n` is the next one of the lexer in use. -/
structure Session.At (source : String) (n : Nat) (s : Session) : Prop where
  ahead : ∃ m, Lexer.Waits source n s.lexer.pushed m ∧ s.lexer.scanner = (Lexer.after source m).scanner
  taken : Lexer.Taken source n s.taken

namespace Session.At

variable {source : String} {n : Nat} {s : Session}

theorem start (source : String) : At source 0 ⟨.ofString source, []⟩ :=
  ⟨⟨0, .nil 0, rfl⟩, .nil⟩

/-- The next token comes from those that wait, if there are any, and from the scanner otherwise. -/
theorem next_eq (h : s.At source n) : s.lexer.next.1 = Lexer.nth source n := by
  obtain ⟨⟨m, hwaits, hscanner⟩, -⟩ := h
  rw [Lexer.next]
  cases hpushed : s.lexer.pushed with
  | nil =>
    rw [hpushed] at hwaits
    cases hwaits
    rw [Lexer.nth_eq, hscanner]
  | cons t more =>
    rw [hpushed] at hwaits
    cases hwaits with
    | cons hfirst _ => exact hfirst.symm

/-- Behind the next token comes the one with the next number. -/
theorem next_ahead (h : s.At source n) : ∃ m, Lexer.Waits source (n + 1) s.lexer.next.2.pushed m ∧
    s.lexer.next.2.scanner = (Lexer.after source m).scanner := by
  obtain ⟨⟨m, hwaits, hscanner⟩, -⟩ := h
  rw [Lexer.next]
  cases hpushed : s.lexer.pushed with
  | nil =>
    rw [hpushed] at hwaits
    cases hwaits
    refine ⟨n + 1, .nil _, ?_⟩
    rw [Lexer.scanner_after_succ, hscanner]
  | cons t more =>
    rw [hpushed] at hwaits
    cases hwaits with
    | cons _ hmore => exact ⟨m, hmore, hscanner⟩

/-- Both answers to a call are the same, and what they leave keeps together. -/
inductive Agrees (source : String) : Except ParseError (Option Located × Session) →
    Except ParseError (Option Located × Nat) → Prop
  | ok {a : Option Located} {s : Session} {n : Nat} (h : s.At source n) :
      Agrees source (.ok (a, s)) (.ok (a, n))
  | error (e : ParseError) : Agrees source (.error e) (.error e)

/-- A lexer in use and its cursor answer a call alike. -/
theorem call (h : s.At source n) (c : Call) :
    Agrees source ((Session.call c).run s) ((Cursor.call source c).run n) := by
  obtain ⟨m, hwaits, hscanner⟩ := h.next_ahead
  have hnext : s.lexer.next = (Lexer.nth source n, s.lexer.next.2) := Prod.ext h.next_eq rfl
  generalize s.lexer.next.2 = l at hwaits hscanner hnext
  cases c with
  | next =>
    show Agrees source (match s.lexer.next with
      | (.ok t, l) => .ok (some t, ⟨l, t :: s.taken⟩)
      | (.error e, _) => .error e) ((Lexer.nth source n).map fun t => (some t, n + 1))
    rw [hnext]
    cases htoken : Lexer.nth source n with
    | ok t => exact .ok ⟨⟨m, hwaits, hscanner⟩, .cons htoken h.taken⟩
    | error e => exact .error e
  | peek =>
    show Agrees source (match s.lexer.peek with
      | (.ok t, l) => .ok (some t, ⟨l, s.taken⟩)
      | (.error e, _) => .error e) ((Lexer.nth source n).map fun t => (some t, n))
    rw [Lexer.peek, hnext]
    cases htoken : Lexer.nth source n with
    | ok t => exact .ok ⟨⟨m, .cons htoken hwaits, hscanner⟩, h.taken⟩
    | error e => exact .error e
  | back =>
    show Agrees source (match s.taken with
      | t :: more => .ok (none, ⟨s.lexer.pushBack t, more⟩)
      | [] => .ok (none, s)) (.ok (none, n - 1))
    obtain ⟨⟨m, hwaits, hscanner⟩, htaken⟩ := h
    cases hlist : s.taken with
    | nil =>
      rw [hlist] at htaken
      cases htaken
      exact .ok ⟨⟨m, hwaits, hscanner⟩, hlist ▸ .nil⟩
    | cons t more =>
      rw [hlist] at htaken
      cases htaken with
      | cons htoken hbefore => exact .ok ⟨⟨m, .cons htoken hwaits, hscanner⟩, hbefore⟩

end Session.At

/-- A lexer in use and its cursor answer all calls alike. -/
theorem Session.At.mapM_call {source : String} {n : Nat} {s : Session} (h : s.At source n)
    (calls : List Call) :
    (calls.mapM Session.call).run' s = (calls.mapM (Cursor.call source)).run' n := by
  induction calls generalizing s n with
  | nil => rfl
  | cons c calls ih =>
    rw [List.mapM_cons, List.mapM_cons, StateT.run'_eq, StateT.run'_eq, StateT.run_bind, StateT.run_bind]
    have hcall := h.call c
    generalize (Session.call c).run s = r, (Cursor.call source c).run n = r' at hcall
    cases hcall with
    | error e => rfl
    | @ok a s n h =>
      have hmore := ih h
      rw [StateT.run'_eq, StateT.run'_eq] at hmore
      show Prod.fst <$> ((calls.mapM Session.call >>= fun more => pure (a :: more)).run s) =
        Prod.fst <$> ((calls.mapM (Cursor.call source) >>= fun more => pure (a :: more)).run n)
      simp only [StateT.run_bind, StateT.run_pure, map_bind, map_pure]
      simpa using congrArg ((a :: ·) <$> ·) hmore

/-- Looking ahead does not show. Whatever calls are made, a lexer answers as a cursor does that starts at
the first of the tokens that are taken one after the other, up to the first failure; and the end of the
text, once reached, is there for ever. -/
theorem Session.mapM_call_eq (source : String) :
    (∀ calls : List Call, (calls.mapM Session.call).run' ⟨.ofString source, []⟩ =
      (calls.mapM (Cursor.call source)).run' 0) ∧
    ∀ n line, Lexer.nth source n = .ok ⟨.eof, line⟩ →
      ∀ m, n ≤ m → Lexer.nth source m = .ok ⟨.eof, line⟩ :=
  ⟨(Session.At.start source).mapM_call, fun _ _ h _ hm => Lexer.nth_of_eof h hm⟩

/-- The word that was looked at is given back in front of the one that follows it. -/
theorem Session.mapM_call_eq_map :
    ([Call.next, .peek, .back, .next, .next, .next, .next].mapM Session.call).run'
        ⟨.ofString "map <", []⟩ =
      .ok [some ⟨.ident "map", 1⟩, some ⟨.symbol '<', 1⟩, none, some ⟨.ident "map", 1⟩,
        some ⟨.symbol '<', 1⟩, some ⟨.eof, 1⟩, some ⟨.eof, 1⟩] ∧
    Lexer.nth "map <" 2 = .ok ⟨.eof, 1⟩ ∧ Lexer.nth "map <" 7 = .ok ⟨.eof, 1⟩ := by
  have hend : Lexer.nth "map <" 2 = .ok ⟨.eof, 1⟩ := by decide
  refine ⟨?_, hend, (Session.mapM_call_eq "map <").2 2 1 hend 7 (by decide)⟩
  rw [(Session.mapM_call_eq "map <").1]
  rfl

end Protobuf.Schema
