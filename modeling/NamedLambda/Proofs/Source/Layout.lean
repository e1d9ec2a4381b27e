/-
NamedLambda/Proofs/Source/Layout.lean

How a source text is laid out, and that the lexer reads exactly the layout.

A layout divides a text into blanks, then lexemes with blanks after each of them, and then a rest.
An identifier in it is as long as it can be, so a layout is what reading from the left comes to, and
every text has one whose rest is empty or begins with a character that nothing can be read from
(`exists_layout`).  Where the lexer stops and what it answers can be read off that layout
(`Layout.lexFrom`): the tokens if there is no rest, and an error at the first character of the rest
otherwise.

Main result: `lex_exact`.
-/
import Mathlib.Data.List.TakeWhile
import NamedLambda.Proofs.Source.Lexer

namespace NamedLambda

/-- The characters of a text at a place. -/
def Span.slice (span : Span) (cs : List Char) : List Char :=
  (cs.take span.stop).drop span.start

theorem Span.slice_append (pre cs rest : List Char) :
    Span.slice ⟨pre.length, pre.length + cs.length⟩ (pre ++ (cs ++ rest)) = cs := by
  have htake : (pre ++ (cs ++ rest)).take (pre.length + cs.length) = pre ++ cs := by
    rw [← List.append_assoc, ← List.length_append]
    exact List.take_left
  show ((pre ++ (cs ++ rest)).take (pre.length + cs.length)).drop pre.length = cs
  rw [htake]
  exact List.drop_left

namespace Token

/-! ### Layouts -/

/-- A lexeme with its token and the blanks after it. -/
structure Piece where
  token : Token
  lexeme : List Char
  blanks : List Char

/-- The characters of a piece. -/
def Piece.text (p : Piece) : List Char :=
  p.lexeme ++ p.blanks

/-- The characters of a row of pieces. -/
def textOf (ps : List Piece) : List Char :=
  ps.flatMap Piece.text

@[simp] theorem textOf_nil : textOf [] = [] := rfl

@[simp] theorem textOf_cons (p : Piece) (ps : List Piece) :
    textOf (p :: ps) = p.lexeme ++ (p.blanks ++ textOf ps) := by
  simp [textOf, Piece.text]

/-- The pieces `ps` can stand in a row in front of `rest`. -/
inductive Row (rest : List Char) : List Piece → Prop
  | nil : Row rest []
  | cons {p : Piece} {ps : List Piece} :
      Lexeme p.lexeme p.token → (∀ c ∈ p.blanks, isBlank c = true) →
        p.token.EndsBefore (p.blanks ++ (textOf ps ++ rest)) → Row rest ps → Row rest (p :: ps)

/-- The text `cs` is made of `blanks`, the pieces `ps` and `rest`, in this order. -/
structure Layout (cs blanks : List Char) (ps : List Piece) (rest : List Char) : Prop where
  text : cs = blanks ++ (textOf ps ++ rest)
  blank : ∀ c ∈ blanks, isBlank c = true
  row : Row rest ps

/-- The character `c` is not a blank, and no lexeme begins with it. -/
structure Unreadable (c : Char) : Prop where
  blank : isBlank c = false
  sign : ofChar? c = none
  start : isIdentifierStart c = false

/-- At `p` stands the first character that is neither a blank nor part of a lexeme. -/
def FirstUnreadable (cs : List Char) (p : Nat) : Prop :=
  ∃ blanks ps c rest, Layout cs blanks ps (c :: rest) ∧ Unreadable c ∧
    p = blanks.length + (textOf ps).length

theorem Lexeme.ne_nil {lexeme : List Char} {t : Token} (h : Lexeme lexeme t) : lexeme ≠ [] := by
  cases h with
  | sign _ => exact List.cons_ne_nil _ _
  | ident hx =>
      obtain ⟨c, cs, hcs, -, -⟩ := Name.isIdentifier_iff.1 hx
      rw [hcs]
      exact List.cons_ne_nil c cs

theorem Lexeme.length_pos {lexeme : List Char} {t : Token} (h : Lexeme lexeme t) :
    0 < lexeme.length :=
  List.length_pos_iff.2 h.ne_nil

/-! ### Every text has a layout -/

theorem Layout.consBlank {cs blanks rest : List Char} {ps : List Piece}
    (h : Layout cs blanks ps rest) {c : Char} (hc : isBlank c = true) :
    Layout (c :: cs) (c :: blanks) ps rest where
  text := by rw [h.text, List.cons_append]
  blank := by simpa [hc] using h.blank
  row := h.row

/-- A lexeme in front of a layout takes the blanks that the layout opens with. -/
theorem Layout.consLexeme {cs blanks rest lexeme : List Char} {ps : List Piece} {t : Token}
    (h : Layout cs blanks ps rest) (hlexeme : Lexeme lexeme t) (hend : t.EndsBefore cs) :
    Layout (lexeme ++ cs) [] (⟨t, lexeme, blanks⟩ :: ps) rest where
  text := by simp [h.text]
  blank := by simp
  row := .cons hlexeme h.blank (h.text ▸ hend) h.row

theorem continues_dropWhile (cs : List Char) :
    continues (cs.dropWhile isIdentifierContinue) = false := by
  induction cs with
  | nil => rfl
  | cons c cs ih =>
      rw [List.dropWhile_cons]
      split
      · exact ih
      · next hc => simpa [continues] using hc

/-- A character is a blank, or a lexeme of greatest length begins with it, or it is unreadable. -/
theorem read_character (c : Char) (cs : List Char) :
    isBlank c = true ∨
      (∃ lexeme t rest, c :: cs = lexeme ++ rest ∧ Lexeme lexeme t ∧ t.EndsBefore rest) ∨
      Unreadable c := by
  cases hblank : isBlank c with
  | true => exact Or.inl rfl
  | false =>
      right
      rcases hsign : ofChar? c with - | t
      · cases hstart : isIdentifierStart c with
        | false => exact Or.inr ⟨hblank, hsign, hstart⟩
        | true =>
            left
            let x : Name := String.ofList (c :: cs.takeWhile isIdentifierContinue)
            have hchars : x.toList = c :: cs.takeWhile isIdentifierContinue := String.toList_ofList
            have htail : ∀ d ∈ cs.takeWhile isIdentifierContinue, isIdentifierContinue d = true :=
              fun d hd => List.mem_takeWhile_imp hd
            have hx : x.isIdentifier = true :=
              Name.isIdentifier_iff.2 ⟨c, _, hchars, hstart, htail⟩
            refine ⟨x.toList, ident x, cs.dropWhile isIdentifierContinue, ?_, .ident hx, ?_⟩
            · rw [hchars, List.cons_append, List.takeWhile_append_dropWhile]
            · intro y _
              exact continues_dropWhile cs
      · have hend : t.EndsBefore cs := by
          rintro x rfl
          exact absurd hsign (ofChar?_ne_ident c x)
        exact Or.inl ⟨[c], t, cs, rfl, .sign hsign, hend⟩

/-- Reading goes on until nothing is left or a character cannot be read. -/
theorem exists_layout (cs : List Char) :
    ∃ blanks ps rest, Layout cs blanks ps rest ∧
      (rest = [] ∨ ∃ c rest', rest = c :: rest' ∧ Unreadable c) := by
  induction hn : cs.length using Nat.strongRecOn generalizing cs with
  | _ n ih =>
      subst hn
      cases cs with
      | nil => exact ⟨[], [], [], ⟨rfl, by simp, .nil⟩, Or.inl rfl⟩
      | cons c cs =>
          rcases read_character c cs with hblank | ⟨lexeme, t, cs', heq, hlexeme, hend⟩ | hc
          · obtain ⟨blanks, ps, rest, hlayout, hrest⟩ := ih cs.length (by simp) cs rfl
            exact ⟨c :: blanks, ps, rest, hlayout.consBlank hblank, hrest⟩
          · have hshorter : cs'.length < (c :: cs).length := by
              have hpos := hlexeme.length_pos
              rw [heq, List.length_append]
              omega
            obtain ⟨blanks, ps, rest, hlayout, hrest⟩ := ih cs'.length hshorter cs' rfl
            rw [heq]
            exact ⟨[], _, rest, hlayout.consLexeme hlexeme hend, hrest⟩
          · exact ⟨[], [], c :: cs, ⟨rfl, by simp, .nil⟩, Or.inr ⟨c, cs, rfl, hc⟩⟩

/-! ### The lexer on a layout -/

/-- The tokens of a row of pieces that begins at `pos`. -/
def located : Nat → List Piece → List (Located Token)
  | _, [] => []
  | pos, p :: ps =>
      ⟨p.token, ⟨pos, pos + p.lexeme.length⟩⟩ ::
        located (pos + p.lexeme.length + p.blanks.length) ps

theorem lexFrom_blanks {blanks : List Char} (h : ∀ c ∈ blanks, isBlank c = true) (mayEnd : Bool)
    (pos : Nat) (cs : List Char) :
    lexFrom mayEnd pos (blanks ++ cs) = lexFrom mayEnd (pos + blanks.length) cs := by
  induction blanks generalizing pos with
  | nil => rfl
  | cons c blanks ih =>
      simp only [List.forall_mem_cons] at h
      rw [List.cons_append, lexFrom_blank h.1, ih h.2, List.length_cons]
      congr 1
      omega

theorem Row.lexFrom {rest : List Char} {ps : List Piece} (h : Row rest ps) (mayEnd : Bool)
    (pos : Nat) :
    Token.lexFrom mayEnd pos (textOf ps ++ rest) =
      (located pos ps ++ ·) <$>
        Token.lexFrom (mayEnd || !ps.isEmpty) (pos + (textOf ps).length) rest := by
  induction h generalizing mayEnd pos with
  | nil => simp [located]
  | @cons p ps hlexeme hblanks hend _ ih =>
      have hread := hlexeme.lexFrom hend mayEnd pos
      have hpos : pos + (textOf (p :: ps)).length =
          pos + p.lexeme.length + p.blanks.length + (textOf ps).length := by
        simp only [textOf_cons, List.length_append]
        omega
      rw [hpos, textOf_cons, List.append_assoc, List.append_assoc, hread, lexFrom_blanks hblanks,
        ih]
      simp [located]

/-- The lexer reads the pieces of a layout and then meets the rest. -/
theorem Layout.lexFrom {cs blanks rest : List Char} {ps : List Piece}
    (h : Layout cs blanks ps rest) (mayEnd : Bool) :
    Token.lexFrom mayEnd 0 cs =
      (located blanks.length ps ++ ·) <$>
        Token.lexFrom (mayEnd || !ps.isEmpty) (blanks.length + (textOf ps).length) rest := by
  rw [h.text, lexFrom_blanks h.blank, h.row.lexFrom, Nat.zero_add]

theorem Unreadable.lexFrom {c : Char} (h : Unreadable c) (mayEnd : Bool) (pos : Nat)
    (cs : List Char) :
    Token.lexFrom mayEnd pos (c :: cs) = .error ⟨some c, starts mayEnd, ⟨pos, pos + 1⟩⟩ := by
  have hblank : ¬ isBlank c = true := by simp [h.blank]
  have hstart : ¬ isIdentifierStart c = true := by simp [h.start]
  rw [Token.lexFrom, if_neg hblank, h.sign]
  simp only [if_neg hstart]

/-! ### The places of the tokens -/

/-- The places of tokens in a text of the given length: none is empty, none reaches beyond the text,
and they come one after the other. -/
structure InOrder (length : Nat) (ls : List (Located Token)) : Prop where
  nonempty : ∀ l ∈ ls, l.span.start < l.span.stop
  inside : ∀ l ∈ ls, l.span.stop ≤ length
  disjoint : ls.Pairwise fun l m => l.span.stop ≤ m.span.start

theorem map_value_located (pos : Nat) (ps : List Piece) :
    (located pos ps).map Located.value = ps.map Piece.token := by
  induction ps generalizing pos with
  | nil => rfl
  | cons p ps ih => simp [located, ih]

/-- What stands at the places of the tokens are the lexemes. -/
theorem map_slice_located (pre : List Char) (ps : List Piece) (rest : List Char) :
    (located pre.length ps).map (fun l => l.span.slice (pre ++ (textOf ps ++ rest))) =
      ps.map Piece.lexeme := by
  induction ps generalizing pre with
  | nil => rfl
  | cons p ps ih =>
      have hhead : Span.slice ⟨pre.length, pre.length + p.lexeme.length⟩
          (pre ++ (textOf (p :: ps) ++ rest)) = p.lexeme := by
        rw [textOf_cons, List.append_assoc]
        exact Span.slice_append pre p.lexeme _
      -- The other pieces stand behind a longer text.
      have htail := ih (pre ++ p.lexeme ++ p.blanks)
      have hlength : (pre ++ p.lexeme ++ p.blanks).length =
          pre.length + p.lexeme.length + p.blanks.length := by
        simp only [List.length_append]
      have htext : pre ++ p.lexeme ++ p.blanks ++ (textOf ps ++ rest) =
          pre ++ (textOf (p :: ps) ++ rest) := by
        simp
      rw [hlength, htext] at htail
      rw [located, List.map_cons, List.map_cons, hhead, htail]

theorem Row.bounds {rest : List Char} {ps : List Piece} (h : Row rest ps) (pos : Nat) :
    ∀ l ∈ located pos ps, pos ≤ l.span.start ∧ l.span.start < l.span.stop ∧
      l.span.stop ≤ pos + (textOf ps).length := by
  induction h generalizing pos with
  | nil => simp [located]
  | @cons p ps hlexeme _ _ _ ih =>
      have hpos := hlexeme.length_pos
      have hlength : (textOf (p :: ps)).length =
          p.lexeme.length + p.blanks.length + (textOf ps).length := by
        simp [Nat.add_assoc]
      intro l hl
      rw [located] at hl
      rcases List.mem_cons.1 hl with rfl | hl
      · refine ⟨Nat.le_refl pos, ?_, ?_⟩
        · show pos < pos + p.lexeme.length
          omega
        · show pos + p.lexeme.length ≤ _
          omega
      · obtain ⟨hstart, hnonempty, hstop⟩ := ih _ l hl
        exact ⟨by omega, hnonempty, by omega⟩

theorem Row.inOrder {rest : List Char} {ps : List Piece} (h : Row rest ps) (pos : Nat) :
    InOrder (pos + (textOf ps).length) (located pos ps) where
  nonempty l hl := (h.bounds pos l hl).2.1
  inside l hl := (h.bounds pos l hl).2.2
  disjoint := by
    induction h generalizing pos with
    | nil => exact List.Pairwise.nil
    | @cons p ps _ _ _ hrow ih =>
        refine List.pairwise_cons.2 ⟨fun l hl => ?_, ih _⟩
        have hstart := (hrow.bounds _ l hl).1
        show pos + p.lexeme.length ≤ l.span.start
        omega

theorem Layout.inOrder {source : String} {blanks : List Char} {ps : List Piece}
    (h : Layout source.toList blanks ps []) :
    InOrder source.length (located blanks.length ps) := by
  have hlength : source.length = blanks.length + (textOf ps).length := by
    rw [← String.length_toList, h.text]
    simp
  rw [hlength]
  exact h.row.inOrder blanks.length

/-! ### Layouts and spellings -/

theorem Spells.blanks {blanks cs : List Char} {ts : List Token} (h : Spells cs ts)
    (hblanks : ∀ c ∈ blanks, isBlank c = true) : Spells (blanks ++ cs) ts := by
  induction blanks with
  | nil => exact h
  | cons c blanks ih =>
      simp only [List.forall_mem_cons] at hblanks
      exact .blank hblanks.1 (ih hblanks.2)

theorem Lexeme.spells {lexeme cs : List Char} {t : Token} {ts : List Token}
    (h : Lexeme lexeme t) (hend : t.EndsBefore cs) (hs : Spells cs ts) :
    Spells (lexeme ++ cs) (t :: ts) := by
  cases h with
  | sign hc => exact .sign hc hs
  | ident hx => exact .ident hx (hend _ rfl) hs

theorem Row.spells {ps : List Piece} (h : Row [] ps) :
    Spells (textOf ps) (ps.map Piece.token) := by
  induction h with
  | nil => exact .nil
  | cons hlexeme hblanks hend _ ih =>
      rw [List.append_nil] at hend
      rw [textOf_cons]
      exact hlexeme.spells hend (ih.blanks hblanks)

/-! ### The answer of the lexer -/

/-- A text that is laid out to its end is read, unless it holds blanks and nothing else. -/
theorem Layout.lex_eq_ok {source : String} {blanks : List Char} {ps : List Piece}
    (h : Layout source.toList blanks ps []) (hps : source = "" ∨ ps ≠ []) :
    lex source = .ok (located blanks.length ps) := by
  have hend : (!opensBlank source.toList || !ps.isEmpty) = true := by
    rcases hps with rfl | hps
    · rfl
    · simp [hps]
  rw [lex, h.lexFrom, hend, Token.lexFrom, if_pos rfl]
  simp

theorem lex_eq_error_of_blanks {source : String} (hne : source ≠ "")
    (h : ∀ c ∈ source.toList, isBlank c = true) :
    lex source = .error ⟨none, starts false, ⟨source.length, source.length⟩⟩ := by
  have hlayout : Layout source.toList source.toList [] [] := ⟨by simp, h, .nil⟩
  have hopens : opensBlank source.toList = true := by
    rcases hs : source.toList with - | ⟨c, cs⟩
    · exact absurd (String.toList_eq_nil_iff.1 hs) hne
    · exact h c (by simp [hs])
  rw [lex, hlayout.lexFrom, hopens]
  simp [lexFrom, String.length_toList]

theorem Layout.lex_eq_error {source : String} {blanks rest : List Char} {ps : List Piece}
    {c : Char} (h : Layout source.toList blanks ps (c :: rest)) (hc : Unreadable c) :
    ∃ e, lex source = .error e ∧
      e.span = ⟨blanks.length + (textOf ps).length, blanks.length + (textOf ps).length + 1⟩ := by
  rw [lex, h.lexFrom, hc.lexFrom]
  exact ⟨_, rfl, rfl⟩

/-- The lexer answers in one of three ways. -/
theorem lex_cases (source : String) :
    (∃ blanks ps, Layout source.toList blanks ps [] ∧ (source = "" ∨ ps ≠ [])) ∨
      (source ≠ "" ∧ ∀ c ∈ source.toList, isBlank c = true) ∨
      ∃ p, FirstUnreadable source.toList p := by
  obtain ⟨blanks, ps, rest, hlayout, rfl | ⟨c, rest', rfl, hc⟩⟩ := exists_layout source.toList
  · by_cases hps : source = "" ∨ ps ≠ []
    · exact Or.inl ⟨blanks, ps, hlayout, hps⟩
    · obtain ⟨hne, hnil⟩ := not_or.1 hps
      obtain rfl : ps = [] := not_not.1 hnil
      have htext : source.toList = blanks := by simpa using hlayout.text
      exact Or.inr (Or.inl ⟨hne, htext ▸ hlayout.blank⟩)
  · exact Or.inr (Or.inr ⟨_, blanks, ps, c, rest', hlayout, hc, rfl⟩)

/-- The lexer reads a text exactly if it is laid out to its end and has a lexeme unless it is
empty. -/
theorem lex_eq_ok_iff {source : String} {ls : List (Located Token)} :
    lex source = .ok ls ↔
      ∃ blanks ps, Layout source.toList blanks ps [] ∧ (source = "" ∨ ps ≠ []) ∧
        ls = located blanks.length ps := by
  constructor
  · intro h
    rcases lex_cases source with ⟨blanks, ps, hlayout, hps⟩ | ⟨hne, hblank⟩ | ⟨p, hp⟩
    · rw [hlayout.lex_eq_ok hps] at h
      exact ⟨blanks, ps, hlayout, hps, (Except.ok.inj h).symm⟩
    · rw [lex_eq_error_of_blanks hne hblank] at h
      cases h
    · obtain ⟨blanks, ps, c, rest, hlayout, hc, -⟩ := hp
      obtain ⟨e, he, -⟩ := hlayout.lex_eq_error hc
      rw [he] at h
      cases h
  · rintro ⟨blanks, ps, hlayout, hps, rfl⟩
    exact hlayout.lex_eq_ok hps

/-- A text that is read spells the tokens that are read from it. -/
theorem spells_of_lex {source : String} {ls : List (Located Token)} (h : lex source = .ok ls) :
    Spells source.toList (ls.map Located.value) := by
  obtain ⟨blanks, ps, hlayout, -, rfl⟩ := lex_eq_ok_iff.1 h
  rw [map_value_located, hlayout.text, List.append_nil]
  exact hlayout.row.spells.blanks hlayout.blank

theorem exists_lex_iff {source : String} :
    (∃ ls, lex source = .ok ls) ↔
      source = "" ∨ ∃ blanks ps, ps ≠ [] ∧ Layout source.toList blanks ps [] := by
  constructor
  · rintro ⟨ls, hls⟩
    obtain ⟨blanks, ps, hlayout, hempty | hps, -⟩ := lex_eq_ok_iff.1 hls
    · exact Or.inl hempty
    · exact Or.inr ⟨blanks, ps, hps, hlayout⟩
  · rintro (rfl | ⟨blanks, ps, hps, hlayout⟩)
    · have hlayout : Layout "".toList [] [] [] := ⟨rfl, by simp, .nil⟩
      exact ⟨_, hlayout.lex_eq_ok (Or.inl rfl)⟩
    · exact ⟨_, hlayout.lex_eq_ok (Or.inr hps)⟩

/-- Whatever layout of a text is looked at, the tokens that are read are those of its pieces. -/
theorem Layout.eq_located {source : String} {blanks : List Char} {ps : List Piece}
    (h : Layout source.toList blanks ps []) {ls : List (Located Token)}
    (hls : lex source = .ok ls) : ls = located blanks.length ps := by
  have hps : source = "" ∨ ps ≠ [] := by
    by_contra hnot
    obtain ⟨hne, hnil⟩ := not_or.1 hnot
    obtain rfl : ps = [] := not_not.1 hnil
    -- A text of blanks alone is not read.
    have htext : source.toList = blanks := by simpa using h.text
    rw [lex_eq_error_of_blanks hne (htext ▸ h.blank)] at hls
    cases hls
  rw [h.lex_eq_ok hps] at hls
  exact (Except.ok.inj hls).symm

theorem exists_lex_error_iff {source : String} {span : Span} :
    (∃ e, lex source = .error e ∧ e.span = span) ↔
      (source ≠ "" ∧ (∀ c ∈ source.toList, isBlank c = true) ∧
          span = ⟨source.length, source.length⟩) ∨
        ∃ p, FirstUnreadable source.toList p ∧ span = ⟨p, p + 1⟩ := by
  constructor
  · rintro ⟨e, he, rfl⟩
    rcases lex_cases source with ⟨blanks, ps, hlayout, hps⟩ | ⟨hne, hblank⟩ | ⟨p, hp⟩
    · rw [hlayout.lex_eq_ok hps] at he
      cases he
    · rw [lex_eq_error_of_blanks hne hblank] at he
      cases he
      exact Or.inl ⟨hne, hblank, rfl⟩
    · obtain ⟨blanks, ps, c, rest, hlayout, hc, rfl⟩ := hp
      obtain ⟨e', he', hspan⟩ := hlayout.lex_eq_error hc
      rw [he] at he'
      cases he'
      exact Or.inr ⟨_, ⟨blanks, ps, c, rest, hlayout, hc, rfl⟩, hspan⟩
  · rintro (⟨hne, hblank, rfl⟩ | ⟨p, ⟨blanks, ps, c, rest, hlayout, hc, rfl⟩, rfl⟩)
    · exact ⟨_, lex_eq_error_of_blanks hne hblank, rfl⟩
    · exact hlayout.lex_eq_error hc

/-- **The lexer reads exactly the texts that are laid out to their end**, the empty text and those
with at least one lexeme.  Then its tokens are those of the lexemes, in order, and their places are
in order, too, and are where the lexemes stand.  Any other text has one error.  It lies at the end
of a text of blanks and otherwise at the first character that is neither a blank nor part of a
lexeme. -/
theorem lex_exact (source : String) :
    ((∃ ls, lex source = .ok ls) ↔
      source = "" ∨ ∃ blanks ps, ps ≠ [] ∧ Layout source.toList blanks ps []) ∧
    (∀ ls, lex source = .ok ls → InOrder source.length ls ∧
      ∀ blanks ps, Layout source.toList blanks ps [] →
        ls.map Located.value = ps.map Piece.token ∧
          ls.map (fun l => l.span.slice source.toList) = ps.map Piece.lexeme) ∧
    ∀ span, (∃ e, lex source = .error e ∧ e.span = span) ↔
      (source ≠ "" ∧ (∀ c ∈ source.toList, isBlank c = true) ∧
          span = ⟨source.length, source.length⟩) ∨
        ∃ p, FirstUnreadable source.toList p ∧ span = ⟨p, p + 1⟩ := by
  refine ⟨exists_lex_iff, ?_, fun span => exists_lex_error_iff⟩
  intro ls hls
  obtain ⟨blanks₀, ps₀, hlayout₀, -, rfl⟩ := lex_eq_ok_iff.1 hls
  refine ⟨hlayout₀.inOrder, ?_⟩
  intro blanks ps hlayout
  have hslices := map_slice_located blanks ps []
  rw [← hlayout.text] at hslices
  rw [hlayout.eq_located hls]
  exact ⟨map_value_located _ ps, hslices⟩

/-- An identifier, a sign and an identifier are read; a digit after a blank is not. -/
theorem lex_exact_identifiers :
    let source := " f1 (é"
    let ps : List Piece :=
      [⟨.ident "f1", "f1".toList, [' ']⟩, ⟨.openParen, ['('], []⟩, ⟨.ident "é", "é".toList, []⟩]
    Layout source.toList [' '] ps [] ∧
      (∃ ls, lex source = .ok ls ∧ InOrder source.length ls ∧
        ls.map Located.value = [.ident "f1", .openParen, .ident "é"] ∧
          ls.map (fun l => l.span.slice source.toList) = [['f', '1'], ['('], ['é']]) ∧
      FirstUnreadable " x 1".toList 3 ∧ ∃ e, lex " x 1" = .error e ∧ e.span = ⟨3, 4⟩ := by
  intro source ps
  have hblank : ∀ c ∈ [' '], isBlank c = true := by
    rw [List.forall_mem_singleton]
    decide
  have hrow : Row [] ps :=
    .cons (.ident (by decide +kernel)) hblank (fun _ _ => by decide +kernel)
      (.cons (.sign rfl) (by simp) (fun _ h => by cases h)
        (.cons (.ident (by decide +kernel)) (by simp) (fun _ _ => rfl) .nil))
  have hlayout : Layout source.toList [' '] ps [] := ⟨by decide +kernel, hblank, hrow⟩
  have hdigit : FirstUnreadable " x 1".toList 3 := by
    refine ⟨[' '], [⟨.ident "x", "x".toList, [' ']⟩], '1', [], ⟨by decide +kernel, hblank, ?_⟩,
      ⟨by decide, rfl, by decide +kernel⟩, by decide +kernel⟩
    exact .cons (.ident (by decide +kernel)) hblank (fun _ _ => by decide +kernel) .nil
  obtain ⟨hok, hplaces, -⟩ := lex_exact source
  obtain ⟨ls, hls⟩ := hok.2 (Or.inr ⟨_, _, by simp [ps], hlayout⟩)
  obtain ⟨horder, hpieces⟩ := hplaces ls hls
  obtain ⟨hvalues, hslices⟩ := hpieces _ _ hlayout
  obtain ⟨-, -, herror⟩ := lex_exact " x 1"
  exact ⟨hlayout, ⟨ls, hls, horder, hvalues, hslices⟩, hdigit,
    (herror ⟨3, 4⟩).2 (Or.inr ⟨3, hdigit, rfl⟩)⟩

end Token

end NamedLambda
