/-
NamedLambda/Proofs/Session/Continuation.lean

A line that is continued is worth as much as the same line in one piece.

Where the one text has a newline, for the backslash that was there, the other one has a space.  To
all readers one blank is as good as another, so two things are left to look at.  The name of a
directive ends with a space and with no other blank, so the space must come before the line is
broken (`breaksName`); then both texts have the same name and arguments that differ in one blank
(`splitLine_continued`).  If it does not come before, the rest of the line must be blanks that are
ignored (`splitLine_blank_continuation`).  And a refused step budget is quoted as it was written, so
what is printed aside is the same only when it is put on one line (`Session.handle_onOneLine`).

Main result: `feedAll_continued_line`.
-/
import NamedLambda.Proofs.Session.Conservation
import NamedLambda.Proofs.Session.LogicalLine
import NamedLambda.Proofs.Source.BlankExchange

namespace NamedLambda

/-! ### Texts on one line -/

/-- A newline gives way to a space. -/
def spaceForNewline (c : Char) : Char :=
  if c = '\n' then ' ' else c

theorem exchangesBlanks_spaceForNewline : ExchangesBlanks spaceForNewline where
  blank c hc := by
    rw [spaceForNewline]
    split
    · decide
    · exact hc
  other c hc := by
    rw [spaceForNewline, if_neg]
    rintro rfl
    cases hc

/-- A text with a space for each newline. -/
def onOneLine (s : String) : String :=
  s.map spaceForNewline

theorem toList_onOneLine (s : String) : (onOneLine s).toList = s.toList.map spaceForNewline :=
  String.toList_map

theorem onOneLine_append (s s' : String) : onOneLine (s ++ s') = onOneLine s ++ onOneLine s' := by
  rw [← String.toList_inj]
  simp only [toList_onOneLine, String.toList_append, List.map_append]

theorem isEmpty_onOneLine (s : String) : (onOneLine s).isEmpty = s.isEmpty := by
  rw [Bool.eq_iff_iff, String.isEmpty_iff, String.isEmpty_iff, ← String.toList_eq_nil_iff,
    toList_onOneLine, List.map_eq_nil_iff, String.toList_eq_nil_iff]

theorem map_spaceForNewline {cs : List Char} (h : '\n' ∉ cs) : cs.map spaceForNewline = cs := by
  have hstay : ∀ c ∈ cs, spaceForNewline c = id c := by
    intro c hc
    rw [spaceForNewline, if_neg]
    · rfl
    · rintro rfl
      exact h hc
  rw [List.map_congr_left hstay, List.map_id]

theorem OneLine.onOneLine_eq {s : String} (h : OneLine s) : onOneLine s = s := by
  rw [← String.toList_inj, toList_onOneLine, map_spaceForNewline h]

theorem onOneLine_continued {p q : String} (hp : OneLine p) (hq : OneLine q) :
    onOneLine (p ++ "\n" ++ q) = p ++ " " ++ q := by
  have hbreak : onOneLine "\n" = " " := by decide +kernel
  rw [onOneLine_append, onOneLine_append, hp.onOneLine_eq, hq.onOneLine_eq, hbreak]

/-- An answer with its warnings on one line each. -/
def Reply.onOneLine (reply : Reply) : Reply :=
  { reply with warnings := reply.warnings.map NamedLambda.onOneLine }

/-- A warning on one line. -/
def Complaint.onOneLine : Complaint → Complaint
  | warning text => warning (NamedLambda.onOneLine text)
  | failure e => failure e

theorem Reply.complaints_onOneLine (reply : Reply) :
    reply.onOneLine.complaints = reply.complaints.map Complaint.onOneLine := by
  rw [complaints, complaints, List.map_append, List.map_map, Reply.onOneLine, List.map_map]
  rcases reply.failure with - | e <;> rfl

theorem Reply.onOneLine_of_warnings {reply : Reply} (h : reply.warnings = []) :
    reply.onOneLine = reply := by
  obtain ⟨lines, warnings, failure⟩ := reply
  obtain rfl : warnings = [] := h
  rfl

/-! ### Arguments -/

namespace Session

variable (session : Session)

/-- A query does not see which blanks its argument has. -/
theorem ask_map {g : Char → Char} (hg : ExchangesBlanks g) (argument : String) (q : Query) :
    session.ask (argument.map g) q = session.ask argument q := by
  have hread : readTerm (argument.map g) = readTerm argument := by
    rw [readTerm, readTerm, hg.parseTerm_map]
  have hresolve : session.resolveTerm (argument.map g) = session.resolveTerm argument := by
    rw [resolveTerm, resolveTerm, hread]
  cases q with
  | tokenize => rw [ask, ask, tokenize, tokenize, hg.lex_map]
  | parse => rw [ask, ask, hread]
  | reduce s => rw [ask, ask, hresolve]
  | trace => rw [ask, ask, hresolve]
  | number => rw [ask, ask, hresolve]
  | truth => rw [ask, ask, hresolve]
  | freeVariables => rw [ask, ask, hread]
  | definitions => rfl
  | help => rfl

theorem evaluate_map {g : Char → Char} (hg : ExchangesBlanks g) (argument : String) :
    session.evaluate (argument.map g) = session.evaluate argument := by
  rw [evaluate, evaluate, hg.parseCommands_map]

theorem chooseBudget_onOneLine (argument : String) :
    session.chooseBudget (onOneLine argument) =
      ((session.chooseBudget argument).1, (session.chooseBudget argument).2.onOneLine) := by
  have htrim : trim (onOneLine argument) = onOneLine (trim argument) :=
    exchangesBlanks_spaceForNewline.trim_map argument
  have hread : readBudget (onOneLine (trim argument)) = readBudget (trim argument) :=
    exchangesBlanks_spaceForNewline.readBudget_map _
  have hempty := isEmpty_onOneLine (trim argument)
  rw [chooseBudget, chooseBudget]
  simp only [htrim, hread, hempty]
  rcases (trim argument).isEmpty with - | -
  · rcases readBudget (trim argument) with e | n
    · -- The refused text is quoted between texts without a newline.
      have hopening : onOneLine "Invalid step budget " = "Invalid step budget " := by
        decide +kernel
      have hmessage : onOneLine (": " ++ e.message) = ": " ++ e.message := by
        cases e <;> decide +kernel
      simp [Reply.onOneLine, onOneLine_append, hopening, hmessage, String.append_assoc]
    · rfl
  · rfl

theorem trim_of_blank {s : String} (hs : ∀ c ∈ s.toList, isBlank c = true) : trim s = "" := by
  have hstart : s.toList.dropWhile isBlank = [] := List.dropWhile_eq_nil_iff.2 hs
  rw [trim, trimStart, hstart]
  rfl

theorem chooseBudget_of_blank {argument : String}
    (hblank : ∀ c ∈ argument.toList, isBlank c = true) :
    session.chooseBudget argument = session.chooseBudget "" := by
  have hempty : trim "" = "" := by decide +kernel
  rw [chooseBudget, chooseBudget, trim_of_blank hblank, hempty]

theorem warnings_executeAll (cs : List Command) : (session.executeAll cs).2.warnings = [] := by
  induction cs generalizing session with
  | nil => rfl
  | cons c cs ih =>
      rw [executeAll]
      rcases session.execute c with e | ⟨next, line⟩
      · rfl
      · exact ih next

theorem warnings_evaluate (argument : String) : (session.evaluate argument).2.warnings = [] := by
  rw [evaluate]
  rcases parseCommands argument with e | cs
  · rfl
  · exact session.warnings_executeAll cs

/-! ### Lines -/

/-- Lines with the same directive, and arguments that are the same on one line, are answered alike,
but for warnings, which are the same on one line. -/
theorem handle_onOneLine {line line' name argument : String}
    (h : Directive.splitLine line = (name, argument))
    (h' : Directive.splitLine line' = (name, onOneLine argument)) (hname : OneLine name) :
    session.handle line' = ((session.handle line).1, (session.handle line).2.onOneLine) := by
  rw [handle, handle, h, h']
  dsimp only
  rcases Directive.ofName? name with - | q | - | -
  · have hunknown : OneLine ("Unknown command " ++ name) :=
      oneLine_append.2 ⟨by decide +kernel, hname⟩
    simp only [Reply.onOneLine, List.map_cons, List.map_nil, hunknown.onOneLine_eq]
  · have hask : session.ask (onOneLine argument) q = session.ask argument q :=
      session.ask_map exchangesBlanks_spaceForNewline argument q
    simp only [hask]
    rcases session.ask argument q with e | lines <;> rfl
  · exact session.chooseBudget_onOneLine argument
  · have hevaluate : session.evaluate (onOneLine argument) = session.evaluate argument :=
      session.evaluate_map exchangesBlanks_spaceForNewline argument
    simp only [hevaluate, Reply.onOneLine_of_warnings (session.warnings_evaluate argument)]

/-- The answer is the same for any argument of blanks.  Either the argument is not looked at, as
where the name is unknown, or it is trimmed first. -/
def ignoresBlanks : Option Directive → Bool
  | none | some .budget | some (.query .definitions) | some (.query .help) => true
  | _ => false

theorem handle_of_ignoresBlanks {line line' name argument : String}
    (h : Directive.splitLine line = (name, ""))
    (h' : Directive.splitLine line' = (name, argument))
    (hblank : ∀ c ∈ argument.toList, isBlank c = true)
    (hignores : ignoresBlanks (Directive.ofName? name) = true) :
    session.handle line' = session.handle line := by
  rw [handle, handle, h, h']
  dsimp only
  rcases hd : Directive.ofName? name with - | q | - | -
  · rfl
  · rw [hd] at hignores
    cases q with
    | definitions => rfl
    | help => rfl
    | _ => cases hignores
  · exact session.chooseBudget_of_blank hblank
  · rw [hd] at hignores
    cases hignores

end Session

/-! ### The name of a directive -/

theorem trimEnd_append_blank {cs bs : List Char} (hbs : ∀ c ∈ bs, isBlank c = true) :
    trimEnd (String.ofList (cs ++ bs)) = trimEnd (String.ofList cs) := by
  have hreverse : ∀ c ∈ bs.reverse, isBlank c = true := fun c hc => hbs c (List.mem_reverse.1 hc)
  rw [trimEnd, trimEnd, String.toList_ofList, String.toList_ofList, List.reverse_append,
    List.dropWhile_append_of_pos hreverse]

namespace Directive

/-- The name and the argument in what follows the colon and any blanks. -/
def splitText (text : List Char) : String × String :=
  match text.dropWhile (· ≠ ' ') with
  | _ :: argument => (String.ofList (text.takeWhile (· ≠ ' ')), String.ofList argument)
  | [] => (trimEnd (String.ofList text), "")

theorem splitLine_of_colon {line : String} {cs : List Char} (h : line.toList = ':' :: cs) :
    splitLine line = splitText (cs.dropWhile isBlank) := by
  rw [splitLine, h]
  simp only [trim, trimStart, String.toList_ofList]
  rfl

theorem forall_ne_space {text : List Char} (h : ' ' ∉ text) :
    ∀ c ∈ text, decide (c ≠ ' ') = true := by
  intro c hc
  rw [decide_eq_true_eq]
  rintro rfl
  exact h hc

/-- Without a space there is no argument. -/
theorem splitText_of_not_mem {text : List Char} (h : ' ' ∉ text) :
    splitText text = (trimEnd (String.ofList text), "") := by
  have hdrop : text.dropWhile (· ≠ ' ') = [] := List.dropWhile_eq_nil_iff.2 (forall_ne_space h)
  rw [splitText, hdrop]

/-- The first space parts the name from the argument. -/
theorem splitText_append {name : List Char} (h : ' ' ∉ name) (argument : List Char) :
    splitText (name ++ ' ' :: argument) = (String.ofList name, String.ofList argument) := by
  have hname := forall_ne_space h
  rw [splitText, List.dropWhile_append_of_pos hname, List.takeWhile_append_of_pos hname]
  simp

theorem not_mem_dropWhile {c : Char} {cs : List Char} (h : c ∉ cs) (p : Char → Bool) :
    c ∉ cs.dropWhile p :=
  fun hmem => h ((List.dropWhile_sublist p).subset hmem)

theorem oneLine_splitText {text : List Char} (h : '\n' ∉ text) :
    OneLine (splitText text).1 ∧ OneLine (splitText text).2 := by
  rw [splitText]
  split
  · next c argument hdrop =>
      constructor
      · rw [OneLine, String.toList_ofList]
        exact fun hmem => h ((List.takeWhile_sublist _).subset hmem)
      · rw [OneLine, String.toList_ofList]
        intro hmem
        have hdropped : '\n' ∈ text.dropWhile (· ≠ ' ') := hdrop ▸ List.mem_cons_of_mem c hmem
        exact not_mem_dropWhile h _ hdropped
  · refine ⟨?_, List.not_mem_nil⟩
    rw [OneLine, trimEnd, String.toList_ofList, String.toList_ofList, List.mem_reverse]
    exact not_mem_dropWhile (fun hmem => h (List.mem_reverse.1 hmem)) isBlank

/-- Texts that differ behind the first space have the same name. -/
theorem splitText_continued {text q : List Char} (htext : '\n' ∉ text) (hq : '\n' ∉ q)
    (hspace : ' ' ∈ text) :
    ∃ name argument, splitText (text ++ '\n' :: q) = (name, argument) ∧
      splitText (text ++ ' ' :: q) = (name, onOneLine argument) ∧ OneLine name := by
  obtain ⟨name, rest, rfl, hfirst⟩ := List.eq_append_cons_of_mem hspace
  obtain ⟨hname, hrest⟩ : '\n' ∉ name ∧ '\n' ∉ rest := by simpa using htext
  refine ⟨String.ofList name, String.ofList (rest ++ '\n' :: q), ?_, ?_, ?_⟩
  · rw [List.append_assoc, List.cons_append]
    exact splitText_append hfirst _
  · have hargument : onOneLine (String.ofList (rest ++ '\n' :: q)) =
        String.ofList (rest ++ ' ' :: q) := by
      rw [← String.toList_inj, toList_onOneLine, String.toList_ofList, String.toList_ofList,
        List.map_append, List.map_cons, map_spaceForNewline hrest, map_spaceForNewline hq]
      rfl
    rw [List.append_assoc, List.cons_append, hargument]
    exact splitText_append hfirst _
  · rwa [OneLine, String.toList_ofList]

end Directive

/-- The name of a directive that the line ends in, or ends after with no space between. -/
def openName? (line : String) : Option String :=
  match line.toList with
  | ':' :: cs =>
      let name := cs.dropWhile isBlank
      if name.isEmpty || name.contains ' ' then none else some (String.ofList name)
  | _ => none

theorem openName?_eq_some {line name : String} (h : openName? line = some name) :
    ∃ cs, line.toList = ':' :: cs ∧ cs.dropWhile isBlank = name.toList ∧ name.toList ≠ [] ∧
      ' ' ∉ name.toList := by
  rw [openName?] at h
  split at h
  · next cs hcs =>
      dsimp only at h
      split at h
      · cases h
      · next hname =>
          obtain rfl := Option.some.inj h
          rw [Bool.or_eq_true, not_or] at hname
          exact ⟨cs, hcs, String.toList_ofList.symm, by simpa using hname.1, by simpa using hname.2⟩
  · cases h

theorem oneLine_openName? {line name : String} (hline : OneLine line)
    (h : openName? line = some name) : OneLine name := by
  obtain ⟨cs, hcs, hdrop, -, -⟩ := openName?_eq_some h
  have hcs' : '\n' ∉ cs := fun hmem => hline (hcs ▸ List.mem_cons_of_mem _ hmem)
  rw [OneLine, ← hdrop]
  exact Directive.not_mem_dropWhile hcs' isBlank

/-- After the whole name there is nothing on the next line, or nothing but blanks that are ignored.
A space is not among them, for it would end the name, with the newline as its last character. -/
def endsName (name q : String) : Bool :=
  trimEnd name == name && q.toList.all (fun c => isBlank c && c != ' ') &&
    (q.isEmpty || Session.ignoresBlanks (Directive.ofName? name))

/-- Whether a line that goes on with `q` is broken in the name of a directive, or between the name
and what comes after it. -/
def breaksName (p q : String) : Bool :=
  match openName? p with
  | some name => !endsName name q
  | none => false

theorem splitLine_joined {p : String} {cs : List Char} (hp : p.toList = ':' :: cs) (q : String) :
    Directive.splitLine (p ++ "\n" ++ q) =
        Directive.splitText ((cs ++ '\n' :: q.toList).dropWhile isBlank) ∧
      Directive.splitLine (p ++ " " ++ q) =
        Directive.splitText ((cs ++ ' ' :: q.toList).dropWhile isBlank) := by
  constructor
  · exact Directive.splitLine_of_colon (by simp [hp])
  · exact Directive.splitLine_of_colon (by simp [hp])

/-- What comes after a line that does not begin with a colon makes no directive of it. -/
theorem splitLine_append_of_ne_colon {p q line : String} {b : Char}
    (hp : ∀ cs, p.toList ≠ ':' :: cs) (hb : b ≠ ':')
    (hline : line.toList = p.toList ++ b :: q.toList) : Directive.splitLine line = ("", line) := by
  refine splitLine_of_head_ne_colon ?_
  rw [hline]
  rcases htext : p.toList with - | ⟨c, cs⟩
  · simpa using hb
  · intro h
    obtain rfl := Option.some.inj h
    exact hp cs htext

/-- If a space has ended the name before the break, or there is no name yet, the name is that of the
line in one piece. -/
theorem splitLine_continued {p q : String} (hp : OneLine p) (hq : OneLine q)
    (hname : openName? p = none) :
    ∃ name argument, Directive.splitLine (p ++ "\n" ++ q) = (name, argument) ∧
      Directive.splitLine (p ++ " " ++ q) = (name, onOneLine argument) ∧ OneLine name := by
  rw [openName?] at hname
  split at hname
  · next cs hcs =>
      obtain ⟨hbroken, hwhole⟩ := splitLine_joined hcs q
      rw [hbroken, hwhole, List.dropWhile_append, List.dropWhile_append]
      rcases hempty : (cs.dropWhile isBlank).isEmpty with - | -
      · -- The space after the name comes before the break.
        have hspace : ' ' ∈ cs.dropWhile isBlank := by simpa [hempty] using hname
        have hcs' : '\n' ∉ cs := fun hmem => hp (hcs ▸ List.mem_cons_of_mem _ hmem)
        exact Directive.splitText_continued (Directive.not_mem_dropWhile hcs' isBlank) hq hspace
      · -- The name comes after the break, and the blanks before it are passed over.
        have hpassed : ∀ b, isBlank b = true →
            (b :: q.toList).dropWhile isBlank = q.toList.dropWhile isBlank := by
          intro b hb
          rw [List.dropWhile_cons, if_pos hb]
        rw [if_pos rfl, if_pos rfl, hpassed '\n' (by decide), hpassed ' ' (by decide)]
        have hone := Directive.oneLine_splitText (Directive.not_mem_dropWhile hq isBlank)
        rcases hsplit : Directive.splitText (q.toList.dropWhile isBlank) with ⟨name, argument⟩
        rw [hsplit] at hone
        refine ⟨name, argument, rfl, ?_, hone.1⟩
        rw [hone.2.onOneLine_eq]
  · next hcolon =>
      have hbroken : (p ++ "\n" ++ q).toList = p.toList ++ '\n' :: q.toList := by simp
      have hwhole : (p ++ " " ++ q).toList = p.toList ++ ' ' :: q.toList := by simp
      refine ⟨"", _, splitLine_append_of_ne_colon hcolon (by decide) hbroken, ?_, by decide⟩
      rw [onOneLine_continued hp hq]
      exact splitLine_append_of_ne_colon hcolon (by decide) hwhole

/-- If only blanks other than spaces come after the name, they are trimmed from the name together
with the newline, and are the argument of the line in one piece. -/
theorem splitLine_blank_continuation {p q name : String} (hname : openName? p = some name)
    (htrim : trimEnd name = name) (hq : ∀ c ∈ q.toList, isBlank c = true ∧ c ≠ ' ') :
    Directive.splitLine (p ++ "\n" ++ q) = (name, "") ∧
      Directive.splitLine (p ++ " " ++ q) = (name, q) := by
  obtain ⟨cs, hcs, hdrop, hne, hspace⟩ := openName?_eq_some hname
  have htext : ∀ b, (cs ++ b :: q.toList).dropWhile isBlank = name.toList ++ b :: q.toList := by
    intro b
    rw [List.dropWhile_append, hdrop, if_neg (by simpa using hne)]
  obtain ⟨hbroken, hwhole⟩ := splitLine_joined hcs q
  rw [hbroken, hwhole, htext, htext]
  constructor
  · have hnone : ' ' ∉ name.toList ++ '\n' :: q.toList := by
      rw [List.mem_append, List.mem_cons]
      rintro (hmem | hmem | hmem)
      · exact hspace hmem
      · exact absurd hmem (by decide)
      · exact (hq _ hmem).2 rfl
    have hblank : ∀ c ∈ '\n' :: q.toList, isBlank c = true :=
      List.forall_mem_cons.2 ⟨by decide, fun c hc => (hq c hc).1⟩
    rw [Directive.splitText_of_not_mem hnone, trimEnd_append_blank hblank, String.ofList_toList,
      htrim]
  · rw [Directive.splitText_append hspace, String.ofList_toList, String.ofList_toList]

/-- If a line is not broken in a name, it is answered as in one piece, but for warnings, which are
the same on one line. -/
theorem Session.handle_continued (session : Session) {p q : String} (hp : OneLine p)
    (hq : OneLine q) (hname : breaksName p q = false) :
    session.handle (p ++ " " ++ q) =
      ((session.handle (p ++ "\n" ++ q)).1, (session.handle (p ++ "\n" ++ q)).2.onOneLine) := by
  rcases hopen : openName? p with - | name
  · obtain ⟨name, argument, h, h', hone⟩ := splitLine_continued hp hq hopen
    exact session.handle_onOneLine h h' hone
  · have hends : endsName name q = true := by simpa [breaksName, hopen] using hname
    simp only [endsName, Bool.and_eq_true, Bool.or_eq_true, beq_iff_eq, bne_iff_ne, List.all_eq_true,
      String.isEmpty_iff] at hends
    obtain ⟨⟨htrim, hblank⟩, hignores⟩ := hends
    obtain ⟨h, h'⟩ := splitLine_blank_continuation hopen htrim hblank
    -- The broken line has no argument that a warning could quote, so its answer is on one line.
    have hempty : onOneLine "" = "" := by decide +kernel
    have hone := session.handle_onOneLine h (by rw [hempty]; exact h) (oneLine_openName? hp hopen)
    rw [← hone]
    rcases hignores with rfl | hignores
    · rw [handle, handle, h, h']
    · exact session.handle_of_ignoresBlanks h h' (fun c hc => (hblank c hc).1) hignores

/-! ### The loop -/

namespace Repl

theorem respond_continued (session : Session) {p q : String} (hp : OneLine p) (hq : OneLine q)
    (hname : breaksName p q = false) :
    respond session (p ++ " " ++ q) =
      ((respond session (p ++ "\n" ++ q)).1, (respond session (p ++ "\n" ++ q)).2.onOneLine) := by
  have hblank : (trim (p ++ " " ++ q)).isEmpty = (trim (p ++ "\n" ++ q)).isEmpty := by
    rw [← onOneLine_continued hp hq, onOneLine, exchangesBlanks_spaceForNewline.trim_map]
    exact isEmpty_onOneLine _
  rw [respond, respond, hblank]
  split
  · rfl
  · exact session.handle_continued hp hq hname

/-- A line does not end with a backslash for having something put before it. -/
theorem ne_append_backslash {q : String} (hq : ∀ piece, q ≠ piece ++ "\\") (p : String) :
    ∀ piece, p ++ " " ++ q ≠ piece ++ "\\" := by
  intro piece h
  have htext : p.toList ++ ' ' :: q.toList = piece.toList ++ ['\\'] := by
    simpa using congrArg String.toList h
  rcases List.eq_nil_or_concat q.toList with hnil | ⟨cs, c, hcs⟩
  · rw [hnil] at htext
    have hlast := (List.append_inj' htext rfl).2
    cases hlast
  · rw [hcs, List.concat_eq_append, ← List.cons_append, ← List.append_assoc] at htext
    obtain ⟨-, hlast⟩ := List.append_inj' htext rfl
    refine hq (String.ofList cs) ?_
    rw [← String.toList_inj, hcs, List.concat_eq_append, hlast]
    simp

/-- A logical line on its own. -/
theorem feedAll_single (session : Session) (l : LogicalLine) :
    feedAll ⟨session, ""⟩ l.lines =
      (⟨(respond session l.text).1, ""⟩, [(respond session l.text).2]) := by
  have h := feedAll_logical session l []
  rwa [List.append_nil] at h

/-- **A continued line means the same as the line in one piece**, with a space where it was broken.
It leaves the same session and prints the same.  What is printed aside is the same on one line: a
warning that quotes the line has the newline in it.  The line must not be broken in the name of a
directive, nor between the name and the space after it, unless the rest of the line is nothing or
blanks that are ignored. -/
theorem feedAll_continued_line (session : Session) {p q : String} (hp : OneLine p)
    (hq : OneLine q) (hlast : ∀ piece, q ≠ piece ++ "\\") (hname : breaksName p q = false) :
    let continued := feedAll ⟨session, ""⟩ [p ++ "\\", q]
    let whole := feedAll ⟨session, ""⟩ [p ++ " " ++ q]
    continued.1 = whole.1 ∧
      (Transcript.ofReplies continued.2).output = (Transcript.ofReplies whole.2).output ∧
      (Transcript.ofReplies continued.2).complaints.map Complaint.onOneLine =
        (Transcript.ofReplies whole.2).complaints := by
  intro continued whole
  let broken : LogicalLine := ⟨[p], q, hlast⟩
  let joined : LogicalLine := ⟨[], p ++ " " ++ q, ne_append_backslash hlast p⟩
  have hbroken : broken.text = p ++ "\n" ++ q := by simp [broken, LogicalLine.text]
  have hjoined : joined.text = p ++ " " ++ q := by simp [joined, LogicalLine.text]
  have hcontinued : continued = _ := feedAll_single session broken
  have hwhole : whole = _ := feedAll_single session joined
  rw [hbroken] at hcontinued
  rw [hjoined, respond_continued session hp hq hname] at hwhole
  rw [hcontinued, hwhole]
  generalize respond session (p ++ "\n" ++ q) = answer
  refine ⟨rfl, rfl, ?_⟩
  simp [Transcript.ofReplies, Reply.complaints_onOneLine]

/-- The argument of a directive is broken in the midst of a term, and a directive that needs no
argument is broken after its name. -/
theorem feedAll_continued_line_directive :
    let session : Session := ⟨∅, 0⟩
    let p := ":num \\f.\\x.f"
    let q := "(f x)"
    (OneLine p ∧ OneLine q ∧ (∀ piece, q ≠ piece ++ "\\") ∧ breaksName p q = false) ∧
      (feedAll ⟨session, ""⟩ [p ++ "\\", q]).1 = ⟨session, ""⟩ ∧
      (Transcript.ofReplies (feedAll ⟨session, ""⟩ [p ++ "\\", q]).2).output = "2\nBye!\n" ∧
      breaksName ":budget" "" = false ∧
      (Transcript.ofReplies (feedAll ⟨session, ""⟩ [":budget\\", ""]).2).output = "0\nBye!\n" := by
  intro session p q
  have hp : OneLine p := by decide +kernel
  have hq : OneLine q := by decide +kernel
  have hlast : ∀ piece, q ≠ piece ++ "\\" := continued?_eq_none_iff.1 (by decide +kernel)
  have hname : breaksName p q = false := by decide +kernel
  obtain ⟨hloop, houtput, -⟩ := feedAll_continued_line session hp hq hlast hname
  have hafter : breaksName ":budget" "" = false := by decide +kernel
  obtain ⟨-, hbudget, -⟩ := feedAll_continued_line session (by decide +kernel) (by decide +kernel)
    (continued?_eq_none_iff.1 (by decide +kernel)) hafter
  refine ⟨⟨hp, hq, hlast, hname⟩, hloop.trans ?_, houtput.trans ?_, hafter, hbudget.trans ?_⟩
  · decide +kernel
  · decide +kernel
  · decide +kernel

/-- A refused budget is quoted with the newline in it, and a name is not ended by one. -/
theorem feedAll_continued_line_differs :
    let printed := fun lines => Transcript.ofReplies (initial.feedAll lines).2
    ((printed [":budget 1\\", "0"]).complaints =
        [.warning "Invalid step budget 1\n0: invalid digit found in string"] ∧
      (printed [":budget 1 0"]).complaints =
        [.warning "Invalid step budget 1 0: invalid digit found in string"]) ∧
    ((printed [":num\\", "\\f.\\x.x"]).complaints = [.warning "Unknown command num\n\\f.\\x.x"] ∧
      (printed [":num \\f.\\x.x"]).complaints = []) ∧
    ¬ ∀ p q, OneLine p → OneLine q → (∀ piece, q ≠ piece ++ "\\") →
      (printed [p ++ "\\", q]).complaints = (printed [p ++ " " ++ q]).complaints := by
  intro printed
  have hbroken : (printed [":budget 1\\", "0"]).complaints =
      [.warning "Invalid step budget 1\n0: invalid digit found in string"] := by
    decide +kernel
  have hwhole : (printed [":budget 1 0"]).complaints =
      [.warning "Invalid step budget 1 0: invalid digit found in string"] := by
    decide +kernel
  refine ⟨⟨hbroken, hwhole⟩, ⟨by decide +kernel, by decide +kernel⟩, ?_⟩
  intro h
  have hsame := h ":budget 1" "0" (by decide +kernel) (by decide +kernel)
    (continued?_eq_none_iff.1 (by decide +kernel))
  exact absurd (hbroken.symm.trans (hsame.trans hwhole)) (by decide +kernel)

end Repl

end NamedLambda
