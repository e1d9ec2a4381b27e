/-
NamedLambda/Proofs/Session/Sequencing.lean

A semicolon between two lines does what a line break does.

Three things have to be put together for this.  The tokens of the joined line are those of the two
lines with a semicolon between them (`lex_join`), because no identifier runs into a semicolon.  The
grammar derives from them the commands of both lines (`DerivesSequence.join`).  And carrying out
commands one after the other can be broken off at any place and be taken up again from the session
that was left there (`executeAll_append`), unless one of the commands before that place fails.

Main result: `handle_join`.
-/
import NamedLambda.Proofs.Source.Acceptance
import NamedLambda.Proofs.Source.Layout
import NamedLambda.Session.Basic

namespace NamedLambda

/-! ### The tokens of a joined line -/

theorem Token.lex_join {a b : String} {ls ms : List (Located Token)}
    (ha : Token.lex a = .ok ls) (hb : Token.lex b = .ok ms) :
    ∃ ns, Token.lex (a ++ ";" ++ b) = .ok ns ∧
      ns.map Located.value = ls.map Located.value ++ .semicolon :: ms.map Located.value := by
  have hsemicolon : Token.Spells (';' :: b.toList) (.semicolon :: ms.map Located.value) :=
    .sign rfl (Token.spells_of_lex hb)
  have hjoined := (Token.spells_of_lex ha).append (Token.continues_of_sign rfl _) hsemicolon
  have htext : (a ++ ";" ++ b).toList = a.toList ++ ';' :: b.toList := by
    simp [String.toList_append]
  rw [← htext] at hjoined
  exact Token.lex_of_spells hjoined (by simp)

/-! ### The commands of a joined line -/

theorem DerivesSequence.append {ts us : List Token} {cs ds : List Command}
    (hcs : DerivesSequence ts cs) (hds : DerivesSequence us ds) :
    DerivesSequence (ts ++ .semicolon :: us) (cs ++ ds) := by
  induction hds with
  | single hc => exact .more hcs hc
  | more _ hc ih =>
      have hmore := ih.more hc
      simpa using hmore

/-- The first line has to hold a command, and the second one may be any list of commands. -/
theorem DerivesSequence.join {ts us : List Token} {cs ds : List Command}
    (hcs : DerivesSequence ts cs) (hds : DerivesCommands us ds) :
    DerivesCommands (ts ++ .semicolon :: us) (cs ++ ds) := by
  cases hds with
  | empty =>
      have htrailing := DerivesCommands.trailing hcs
      simpa using htrailing
  | sequence hds => exact .sequence (hcs.append hds)
  | trailing hds =>
      have htrailing := DerivesCommands.trailing (hcs.append hds)
      simpa using htrailing

/-- Commands that do not end with a semicolon are a sequence of them. -/
theorem DerivesCommands.sequence_of_ne_nil {ts : List Token} {cs : List Command}
    (h : DerivesCommands ts cs) (hcs : cs ≠ []) (hlast : ts.getLast? ≠ some .semicolon) :
    DerivesSequence ts cs := by
  cases h with
  | empty => exact absurd rfl hcs
  | sequence h => exact h
  | trailing h => exact absurd List.getLast?_concat hlast

/-- The last token of a text. -/
def lastToken? (source : String) : Option Token :=
  match Token.lex source with
  | .ok ls => (ls.map Located.value).getLast?
  | .error _ => none

theorem parseCommands_join {a b : String} {cs ds : List Command}
    (ha : parseCommands a = .ok cs) (hcs : cs ≠ []) (hlast : lastToken? a ≠ some .semicolon)
    (hb : parseCommands b = .ok ds) : parseCommands (a ++ ";" ++ b) = .ok (cs ++ ds) := by
  obtain ⟨ls, hls, hcsd⟩ := parseCommands_eq_ok_iff.1 ha
  obtain ⟨ms, hms, hdsd⟩ := parseCommands_eq_ok_iff.1 hb
  obtain ⟨ns, hns, hvalues⟩ := Token.lex_join hls hms
  rw [lastToken?, hls] at hlast
  have hsequence := hcsd.sequence_of_ne_nil hcs hlast
  have hjoined := hsequence.join hdsd
  rw [← hvalues] at hjoined
  exact parseCommands_eq_ok_iff.2 ⟨ns, hns, hjoined⟩

/-! ### Lines of commands -/

theorem Token.Spells.head_ne_colon {cs : List Char} {ts : List Token} (h : Token.Spells cs ts) :
    cs.head? ≠ some ':' := by
  cases h with
  | nil => simp
  | blank hc _ =>
      rintro heq
      obtain rfl := Option.some.inj heq
      exact absurd hc (by decide)
  | sign hc _ =>
      rintro heq
      obtain rfl := Option.some.inj heq
      cases hc
  | ident hx _ _ =>
      obtain ⟨c, xs, hcx, hc, -⟩ := Name.isIdentifier_iff.1 hx
      rw [hcx]
      rintro heq
      obtain rfl := Option.some.inj heq
      exact absurd hc (by decide +kernel)

/-- Without a colon in front, a line is an argument for evaluation. -/
theorem splitLine_of_head_ne_colon {line : String} (h : line.toList.head? ≠ some ':') :
    Directive.splitLine line = ("", line) := by
  rw [Directive.splitLine]
  split
  · next cs hcs =>
      rw [hcs] at h
      exact absurd rfl h
  · rfl

/-- A text that is cut into tokens names no directive. -/
theorem splitLine_of_lex {line : String} {ls : List (Located Token)}
    (h : Token.lex line = .ok ls) : Directive.splitLine line = ("", line) :=
  splitLine_of_head_ne_colon (Token.spells_of_lex h).head_ne_colon

theorem Reply.joinLines_append (lines lines' : List String) :
    Reply.joinLines (lines ++ lines') = Reply.joinLines lines ++ Reply.joinLines lines' := by
  simp [Reply.joinLines]

namespace Session

/-- A line of commands is carried out. -/
theorem handle_of_parseCommands {line : String} {cs : List Command}
    (h : parseCommands line = .ok cs) (session : Session) :
    session.handle line = session.executeAll cs := by
  obtain ⟨ls, hls, -⟩ := parseCommands_eq_ok_iff.1 h
  have hname : Directive.ofName? "" = some .evaluate := by decide
  rw [handle, splitLine_of_lex hls]
  simp only [hname, evaluate, h]

/-! ### Carrying out commands -/

/-- What comes of going on, unless there was a failure before. -/
def andThen (first : Session × Reply) (second : Session → Session × Reply) : Session × Reply :=
  match first.2.failure with
  | some _ => first
  | none =>
      ((second first.1).1,
        ⟨first.2.lines ++ (second first.1).2.lines, first.2.warnings ++ (second first.1).2.warnings,
          (second first.1).2.failure⟩)

theorem andThen_of_none {first : Session × Reply} (h : first.2.failure = none)
    (second : Session → Session × Reply) :
    andThen first second =
      ((second first.1).1,
        ⟨first.2.lines ++ (second first.1).2.lines, first.2.warnings ++ (second first.1).2.warnings,
          (second first.1).2.failure⟩) := by
  rw [andThen, h]

theorem andThen_of_ne_none {first : Session × Reply} (h : first.2.failure ≠ none)
    (second : Session → Session × Reply) : andThen first second = first := by
  rcases hfailure : first.2.failure with - | e
  · exact absurd hfailure h
  · rw [andThen, hfailure]

/-- Carrying out commands can be broken off and taken up again. -/
theorem executeAll_append (session : Session) (cs ds : List Command) :
    session.executeAll (cs ++ ds) = andThen (session.executeAll cs) (·.executeAll ds) := by
  induction cs generalizing session with
  | nil => rfl
  | cons c cs ih =>
      rw [List.cons_append, executeAll, executeAll]
      rcases session.execute c with e | ⟨next, line⟩
      · rfl
      · simp only [ih]
        -- The line that this command prints stands in front in either case.
        rcases hfailure : (next.executeAll cs).2.failure with - | e
        · simp [andThen, hfailure]
        · simp [andThen, hfailure]

/-- **A line of commands is worth as much as its parts.**  The first part holds a command and does
not end with a semicolon.  If it does not fail, the joined line prints what the two parts print, and
fails or leaves the session as the second one does.  If it fails, the joined line comes to the same
as the first part alone. -/
theorem handle_join {a b : String} {cs ds : List Command} (ha : parseCommands a = .ok cs)
    (hcs : cs ≠ []) (hlast : lastToken? a ≠ some .semicolon) (hb : parseCommands b = .ok ds)
    (session : Session) :
    let first := session.handle a
    let joined := session.handle (a ++ ";" ++ b)
    (first.2.failure = none →
      let second := first.1.handle b
      joined.1 = second.1 ∧ joined.2.failure = second.2.failure ∧
        joined.2.warnings = first.2.warnings ++ second.2.warnings ∧
        Reply.joinLines joined.2.lines =
          Reply.joinLines first.2.lines ++ Reply.joinLines second.2.lines) ∧
      (first.2.failure ≠ none → joined = first) := by
  intro first joined
  have hfirst : first = session.executeAll cs := handle_of_parseCommands ha session
  have hjoined : joined = andThen first (·.executeAll ds) := by
    show session.handle (a ++ ";" ++ b) = _
    rw [handle_of_parseCommands (parseCommands_join ha hcs hlast hb), executeAll_append, hfirst]
  constructor
  · intro hnone second
    have hsecond : second = first.1.executeAll ds := handle_of_parseCommands hb first.1
    rw [hjoined, hsecond, andThen_of_none hnone]
    refine ⟨rfl, rfl, rfl, ?_⟩
    exact Reply.joinLines_append first.2.lines _
  · intro hsome
    rw [hjoined, andThen_of_ne_none hsome]

/-- A definition is joined with its use, and a line that fails before its end with a line that is
then never reached. -/
theorem handle_join_definition :
    let session : Session := ⟨∅, 3⟩
    let whole := "k = \\x.x"
    let broken := "k = y; (\\x.x x) (\\x.x x); k = z "
    let last := " k y;"
    (lastToken? whole = some (.ident "x") ∧ lastToken? broken = some (.ident "z") ∧
      parseCommands last = .ok [.evaluate (.app (.var "k") (.var "y"))]) ∧
    ((session.handle whole).2.failure = none ∧
      Reply.joinLines (session.handle (whole ++ ";" ++ last)).2.lines = "k = \\x.x\ny\n") ∧
    ((session.handle broken).2 =
        ⟨["k = y"], [], some (.evaluation (.divergence ⟨.normalOrder true, 3⟩))⟩ ∧
      session.handle (broken ++ ";" ++ last) = session.handle broken) := by
  intro session whole broken last
  have hwhole : parseCommands whole = .ok [.define "k" (.abs "x" (.var "x"))] := by decide +kernel
  have hbroken : parseCommands broken =
      .ok [.define "k" (.var "y"),
        .evaluate (.app (.abs "x" (.app (.var "x") (.var "x")))
          (.abs "x" (.app (.var "x") (.var "x")))),
        .define "k" (.var "z")] := by
    decide +kernel
  have hlast : parseCommands last = .ok [.evaluate (.app (.var "k") (.var "y"))] := by
    decide +kernel
  have hx : lastToken? whole = some (.ident "x") := by decide +kernel
  have hz : lastToken? broken = some (.ident "z") := by decide +kernel
  have hnone : (session.handle whole).2.failure = none := by decide +kernel
  have hreply : (session.handle broken).2 =
      ⟨["k = y"], [], some (.evaluation (.divergence ⟨.normalOrder true, 3⟩))⟩ := by
    decide +kernel
  have hsome : (session.handle broken).2.failure ≠ none := by
    rw [hreply]
    exact Option.some_ne_none _
  obtain ⟨hjoined, -⟩ := handle_join hwhole (by simp) (by simp [hx]) hlast session
  obtain ⟨-, -, -, hlines⟩ := hjoined hnone
  obtain ⟨-, hstop⟩ := handle_join hbroken (by simp) (by simp [hz]) hlast session
  refine ⟨⟨hx, hz, hlast⟩, ⟨hnone, hlines.trans ?_⟩, hreply, hstop hsome⟩
  decide +kernel

end Session

end NamedLambda
