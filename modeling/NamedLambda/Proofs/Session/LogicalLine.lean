/-
NamedLambda/Proofs/Session/LogicalLine.lean

The reading loop answers logical lines, one after the other.

A logical line is made of lines that are continued, each without its backslash, and of the first
line after them that is not.  Any list of lines can be divided into logical lines and a rest of
continued lines that nothing comes after, and in one way only: `divide` finds the division, and it
is an inverse of writing its lines down (`lines_divide`, `divide_lines`).

The loop keeps what it has read of a logical line in a text.  Over the lines of one logical line
this text grows to the whole of it, then it is answered, and the loop goes on with an empty text
(`feedAll_logical`); so nothing that comes after depends on it but through the session.  What is
left in the loop at the end of the input was never answered.

Main result: `feedAll_eq_respondAll`.
-/
import NamedLambda.Proofs.Session.Sequencing
import NamedLambda.Repl

namespace NamedLambda

namespace Repl

/-! ### Continued lines -/

theorem continued?_eq_some_iff {line piece : String} :
    continued? line = some piece ↔ line = piece ++ "\\" := by
  constructor
  · intro h
    unfold continued? at h
    split at h
    · next cs hcs =>
        obtain rfl := Option.some.inj h
        have hline : line.toList = cs.reverse ++ ['\\'] := by
          rw [← List.reverse_reverse line.toList, hcs, List.reverse_cons]
        rw [← String.toList_inj, hline]
        simp
    · cases h
  · rintro rfl
    simp [continued?]

theorem continued?_eq_none_iff {line : String} :
    continued? line = none ↔ ∀ piece, line ≠ piece ++ "\\" := by
  rw [Option.eq_none_iff_forall_ne_some]
  exact forall_congr' fun piece => not_congr continued?_eq_some_iff

/-! ### Logical lines -/

/-- Continued lines, and the first line after them that is not continued. -/
structure LogicalLine where
  /-- The continued lines, without the backslashes that they end with. -/
  pieces : List String
  last : String
  ends : ∀ piece, last ≠ piece ++ "\\"

namespace LogicalLine

/-- The lines that a logical line is made of. -/
def lines (l : LogicalLine) : List String :=
  l.pieces.map (· ++ "\\") ++ [l.last]

/-- The text of a logical line: each backslash gives way to a newline. -/
def text (l : LogicalLine) : String :=
  String.join (l.pieces.map (· ++ "\n")) ++ l.last

end LogicalLine

/-- Logical lines, and continued lines after them that do not make another one. -/
structure Division where
  logical : List LogicalLine
  /-- The continued lines at the end, without the backslashes that they end with. -/
  unfinished : List String

namespace Division

/-- The lines that are divided. -/
def lines (d : Division) : List String :=
  d.logical.flatMap LogicalLine.lines ++ d.unfinished.map (· ++ "\\")

/-- Put a continued line, given without its backslash, before all others. -/
def consPiece (piece : String) (d : Division) : Division :=
  match d.logical with
  | [] => ⟨[], piece :: d.unfinished⟩
  | l :: ls => ⟨⟨piece :: l.pieces, l.last, l.ends⟩ :: ls, d.unfinished⟩

/-- Put a line before all others. -/
def cons (line : String) (d : Division) : Division :=
  match h : continued? line with
  | some piece => d.consPiece piece
  | none => ⟨⟨[], line, continued?_eq_none_iff.1 h⟩ :: d.logical, d.unfinished⟩

theorem lines_logical (l : LogicalLine) (ls : List LogicalLine) (unfinished : List String) :
    lines ⟨l :: ls, unfinished⟩ = l.lines ++ lines ⟨ls, unfinished⟩ := by
  simp [lines]

theorem cons_piece (piece : String) (d : Division) :
    d.cons (piece ++ "\\") = d.consPiece piece := by
  have h : continued? (piece ++ "\\") = some piece := continued?_eq_some_iff.2 rfl
  unfold cons
  split
  · next piece' h' => rw [Option.some.inj (h'.symm.trans h)]
  · next h' => cases h'.symm.trans h

theorem cons_last {last : String} (hlast : ∀ piece, last ≠ piece ++ "\\") (d : Division) :
    d.cons last = ⟨⟨[], last, hlast⟩ :: d.logical, d.unfinished⟩ := by
  unfold cons
  split
  · next piece h => exact absurd (continued?_eq_some_iff.1 h) (hlast piece)
  · rfl

theorem lines_cons (line : String) (d : Division) : (d.cons line).lines = line :: d.lines := by
  rcases h : continued? line with - | piece
  · rw [cons_last (continued?_eq_none_iff.1 h)]
    simp [lines, LogicalLine.lines]
  · rw [continued?_eq_some_iff.1 h, cons_piece]
    rcases d with ⟨- | ⟨l, ls⟩, rest⟩
    · simp [consPiece, lines]
    · simp [consPiece, lines, LogicalLine.lines]

end Division

/-- The division of lines. -/
def divide (lines : List String) : Division :=
  lines.foldr (fun line d => d.cons line) ⟨[], []⟩

theorem lines_divide (lines : List String) : (divide lines).lines = lines := by
  induction lines with
  | nil => rfl
  | cons line lines ih =>
      show ((divide lines).cons line).lines = line :: lines
      rw [Division.lines_cons, ih]

/-- The lines of a logical line are put together again. -/
theorem divide_logical (l : LogicalLine) (more : List String) :
    divide (l.lines ++ more) = ⟨l :: (divide more).logical, (divide more).unfinished⟩ := by
  obtain ⟨pieces, last, hlast⟩ := l
  induction pieces with
  | nil => exact Division.cons_last hlast (divide more)
  | cons piece pieces ih =>
      show (divide (LogicalLine.lines ⟨pieces, last, hlast⟩ ++ more)).cons (piece ++ "\\") = _
      rw [ih, Division.cons_piece]
      rfl

theorem divide_unfinished (unfinished : List String) :
    divide (unfinished.map (· ++ "\\")) = ⟨[], unfinished⟩ := by
  induction unfinished with
  | nil => rfl
  | cons piece unfinished ih =>
      show (divide (unfinished.map (· ++ "\\"))).cons (piece ++ "\\") = _
      rw [ih, Division.cons_piece]
      rfl

/-- There is no other division of its lines. -/
theorem divide_lines (d : Division) : divide d.lines = d := by
  obtain ⟨logical, unfinished⟩ := d
  induction logical with
  | nil => exact divide_unfinished unfinished
  | cons l ls ih => rw [Division.lines_logical, divide_logical, ih]

/-! ### The loop -/

/-- The session after logical lines, and the answers to them. -/
def respondAll (session : Session) : List String → Session × List Reply
  | [] => (session, [])
  | line :: lines =>
      let (next, reply) := respond session line
      let (last, replies) := respondAll next lines
      (last, reply :: replies)

theorem respondAll_cons (session : Session) (line : String) (lines : List String) :
    respondAll session (line :: lines) =
      ((respondAll (respond session line).1 lines).1,
        (respond session line).2 :: (respondAll (respond session line).1 lines).2) := by
  rw [respondAll]

theorem feedAll_cons (r : Repl) (line : String) (lines : List String) :
    r.feedAll (line :: lines) =
      (((r.feed line).1.feedAll lines).1,
        (r.feed line).2.toList ++ ((r.feed line).1.feedAll lines).2) := by
  rw [feedAll]

/-- A continued line is only kept. -/
theorem feed_piece (r : Repl) (piece : String) :
    r.feed (piece ++ "\\") = (⟨r.session, r.pending ++ piece ++ "\n"⟩, none) := by
  rw [feed, continued?_eq_some_iff.2 rfl]

/-- Any other line is answered, with what was kept before it, and nothing is left. -/
theorem feed_last (r : Repl) {last : String} (hlast : ∀ piece, last ≠ piece ++ "\\") :
    r.feed last =
      (⟨(respond r.session (r.pending ++ last)).1, ""⟩,
        some (respond r.session (r.pending ++ last)).2) := by
  rw [feed, continued?_eq_none_iff.2 hlast]

theorem feedAll_pieces (session : Session) (pending : String) (pieces more : List String) :
    feedAll ⟨session, pending⟩ (pieces.map (· ++ "\\") ++ more) =
      feedAll ⟨session, pending ++ String.join (pieces.map (· ++ "\n"))⟩ more := by
  induction pieces generalizing pending with
  | nil => simp
  | cons piece pieces ih =>
      rw [List.map_cons, List.cons_append, feedAll_cons, feed_piece]
      simp [ih, String.append_assoc]

/-- A logical line is answered as a whole. -/
theorem feedAll_logical (session : Session) (l : LogicalLine) (more : List String) :
    feedAll ⟨session, ""⟩ (l.lines ++ more) =
      ((feedAll ⟨(respond session l.text).1, ""⟩ more).1,
        (respond session l.text).2 :: (feedAll ⟨(respond session l.text).1, ""⟩ more).2) := by
  rw [LogicalLine.lines, List.append_assoc, feedAll_pieces, String.empty_append,
    List.singleton_append, feedAll_cons, feed_last _ l.ends, Option.toList_some,
    List.singleton_append, LogicalLine.text]

/-- After all lines the loop holds the session that the logical lines lead to, and the beginning of
a line that was never answered. -/
theorem feedAll_lines (session : Session) (d : Division) :
    feedAll ⟨session, ""⟩ d.lines =
      (⟨(respondAll session (d.logical.map LogicalLine.text)).1,
          String.join (d.unfinished.map (· ++ "\n"))⟩,
        (respondAll session (d.logical.map LogicalLine.text)).2) := by
  obtain ⟨logical, unfinished⟩ := d
  induction logical generalizing session with
  | nil =>
      have hrest := feedAll_pieces session "" unfinished []
      rw [List.append_nil, String.empty_append] at hrest
      exact hrest
  | cons l ls ih => rw [Division.lines_logical, feedAll_logical, ih, List.map_cons, respondAll_cons]

/-- **The reading loop is a fold over logical lines.**  The lines of every input can be divided in
exactly one way into logical lines and continued lines at the end that are no part of any.  The loop
answers the texts of the logical lines one after the other, each in the session that the one before
has left, and nothing else; then it says farewell. -/
theorem feedAll_eq_respondAll (session : Session) (lines : List String) :
    ∃ d : Division, d.lines = lines ∧ (∀ d' : Division, d'.lines = lines → d' = d) ∧
      let answered := respondAll session (d.logical.map LogicalLine.text)
      let loop := feedAll ⟨session, ""⟩ lines
      loop.1.session = answered.1 ∧ loop.2 = answered.2 ∧
        Transcript.ofReplies loop.2 =
          ⟨Reply.joinLines (answered.2.flatMap Reply.lines) ++ "Bye!\n",
            answered.2.flatMap Reply.complaints⟩ := by
  refine ⟨divide lines, lines_divide lines, ?_, ?_⟩
  · rintro d rfl
    exact (divide_lines d).symm
  · intro answered loop
    have hloop := feedAll_lines session (divide lines)
    rw [lines_divide] at hloop
    have hsession : loop.1.session = answered.1 := congrArg (·.1.session) hloop
    have hreplies : loop.2 = answered.2 := congrArg (·.2) hloop
    refine ⟨hsession, hreplies, ?_⟩
    rw [hreplies, Transcript.ofReplies, Reply.joinLines_append]
    rfl

/-- The definition goes on in the second line, and the last line is never finished. -/
example :
    (transcript "k = \\x.\\\nx\n\nk y\nz\\").output = "k = \\x.x\ny\nBye!\n" := by
  decide +kernel

end Repl

end NamedLambda
