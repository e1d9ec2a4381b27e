/-
NamedLambda/Proofs/Source/Lexer.lean

How a list of tokens is spelled, and that the lexer reads what is spelled.

`Spells cs ts` says that the characters `cs` write the tokens `ts` one after the other, with blanks
anywhere between them.  The one thing to be careful about is the end of an identifier: no character
may follow that would continue it.  So two texts can be joined whenever the second does not begin
in this way, and then their tokens are joined, too (`Spells.append`).
-/
import NamedLambda.Proofs.Name.Identifier
import NamedLambda.Source.Lexer

namespace NamedLambda

namespace Token

/-! ### Spellings -/

/-- Whether a text, put after an identifier, would make it longer. -/
def continues : List Char → Bool
  | c :: _ => isIdentifierContinue c
  | [] => false

/-- The characters `cs` write the tokens `ts`. -/
inductive Spells : List Char → List Token → Prop
  | nil : Spells [] []
  | blank {c : Char} {cs : List Char} {ts : List Token} :
      isBlank c = true → Spells cs ts → Spells (c :: cs) ts
  | sign {c : Char} {t : Token} {cs : List Char} {ts : List Token} :
      ofChar? c = some t → Spells cs ts → Spells (c :: cs) (t :: ts)
  | ident {x : Name} {cs : List Char} {ts : List Token} :
      x.isIdentifier = true → continues cs = false → Spells cs ts →
        Spells (x.toList ++ cs) (ident x :: ts)

theorem continues_append {cs cs' : List Char} (h : continues cs = false)
    (h' : continues cs' = false) : continues (cs ++ cs') = false := by
  cases cs with
  | nil => exact h'
  | cons c cs => exact h

/-- A text that no identifier runs into can be put after any other. -/
theorem Spells.append {cs cs' : List Char} {ts ts' : List Token} (h : Spells cs ts)
    (hsep : continues cs' = false) (h' : Spells cs' ts') : Spells (cs ++ cs') (ts ++ ts') := by
  induction h with
  | nil => exact h'
  | blank hc _ ih => exact .blank hc ih
  | sign hc _ ih => exact .sign hc ih
  | ident hx hcs _ ih =>
      rw [List.append_assoc]
      exact .ident hx (continues_append hcs hsep) ih

theorem Spells.ident_self {x : Name} (hx : x.isIdentifier = true) :
    Spells x.toList [Token.ident x] := by
  have h : Spells (x.toList ++ []) [Token.ident x] := .ident hx rfl .nil
  rwa [List.append_nil] at h

theorem continues_of_sign {c : Char} {t : Token} (h : ofChar? c = some t) (cs : List Char) :
    continues (c :: cs) = false :=
  not_continue_of_sign h

theorem continues_of_blank {c : Char} (h : isBlank c = true) (cs : List Char) :
    continues (c :: cs) = false := by
  rw [continues, ← Bool.not_eq_true]
  intro hc
  rw [not_isBlank_of_continue hc] at h
  cases h

/-! ### Reading one lexeme -/

/-- The characters `cs` are a lexeme, and `t` is the token that they make. -/
inductive Lexeme : List Char → Token → Prop
  | sign {c : Char} {t : Token} : ofChar? c = some t → Lexeme [c] t
  | ident {x : Name} : x.isIdentifier = true → Lexeme x.toList (ident x)

/-- The token `t` ends in front of `cs`: no identifier is followed by what would continue it. -/
def EndsBefore (t : Token) (cs : List Char) : Prop :=
  ∀ x, t = ident x → continues cs = false

theorem lexFrom_blank {c : Char} (hc : isBlank c = true) (mayEnd : Bool) (pos : Nat)
    (cs : List Char) : lexFrom mayEnd pos (c :: cs) = lexFrom mayEnd (pos + 1) cs := by
  rw [lexFrom, if_pos hc]

/-- An identifier takes in its own characters and none of those after it. -/
theorem span_identifier {xs cs : List Char} (hxs : ∀ d ∈ xs, isIdentifierContinue d = true)
    (hcs : continues cs = false) :
    (xs ++ cs).takeWhile isIdentifierContinue = xs ∧
      (xs ++ cs).dropWhile isIdentifierContinue = cs := by
  rw [List.takeWhile_append_of_pos hxs, List.dropWhile_append_of_pos hxs]
  cases cs with
  | nil => exact ⟨List.append_nil xs, rfl⟩
  | cons c cs =>
      have hc : ¬ isIdentifierContinue c = true := by
        rw [Bool.not_eq_true]
        exact hcs
      rw [List.takeWhile_cons_of_neg hc, List.dropWhile_cons_of_neg hc]
      exact ⟨List.append_nil xs, rfl⟩

/-- A lexeme is read as its token, and the reading goes on behind it. -/
theorem Lexeme.lexFrom {lexeme cs : List Char} {t : Token} (h : Lexeme lexeme t)
    (hend : t.EndsBefore cs) (mayEnd : Bool) (pos : Nat) :
    Token.lexFrom mayEnd pos (lexeme ++ cs) =
      (⟨t, ⟨pos, pos + lexeme.length⟩⟩ :: ·) <$> Token.lexFrom true (pos + lexeme.length) cs := by
  cases h with
  | @sign c t hc =>
      have hblank : ¬ isBlank c = true := by simp [not_isBlank_of_sign hc]
      show Token.lexFrom mayEnd pos (c :: cs) = _
      rw [Token.lexFrom, if_neg hblank, hc]
      rfl
  | @ident x hx =>
      obtain ⟨c, xs, hcx, hc, hxs⟩ := Name.isIdentifier_iff.1 hx
      have hcont : isIdentifierContinue c = true := isIdentifierContinue_of_start hc
      have hblank : ¬ isBlank c = true := by simp [not_isBlank_of_continue hcont]
      have hname : String.ofList (c :: xs) = x := by rw [← hcx, String.ofList_toList]
      have hlength : pos + (c :: xs).length = pos + 1 + xs.length := by
        simp only [List.length_cons]
        omega
      -- What follows does not continue the identifier, so it ends where it should.
      obtain ⟨htake, hdrop⟩ := span_identifier hxs (hend x rfl)
      rw [hcx, hlength, List.cons_append, Token.lexFrom, if_neg hblank,
        ofChar?_of_continue hcont]
      simp only [hc, if_true, htake, hdrop, hname]

/-! ### Reading what is spelled -/

/-- **The lexer reads what is spelled.**  A text without tokens is read only where it may end. -/
theorem Spells.lexFrom {cs : List Char} {ts : List Token} (h : Spells cs ts) {mayEnd : Bool}
    (hend : ts = [] → mayEnd = true) (pos : Nat) :
    ∃ ls, lexFrom mayEnd pos cs = .ok ls ∧ ls.map Located.value = ts := by
  induction h generalizing mayEnd pos with
  | nil =>
      rw [Token.lexFrom, if_pos (hend rfl)]
      exact ⟨[], rfl, rfl⟩
  | blank hc _ ih =>
      rw [lexFrom_blank hc]
      exact ih hend (pos + 1)
  | @sign c t cs ts hc _ ih =>
      obtain ⟨ls, hls, hvalues⟩ := ih (fun _ => rfl) (pos + 1)
      have hends : t.EndsBefore cs := by
        rintro x rfl
        exact absurd hc (ofChar?_ne_ident c x)
      have hread := (Lexeme.sign hc).lexFrom hends mayEnd pos
      refine ⟨_, hread.trans (congrArg _ hls), ?_⟩
      rw [List.map_cons, hvalues]
  | @ident x cs ts hx hcs _ ih =>
      obtain ⟨ls, hls, hvalues⟩ := ih (fun _ => rfl) (pos + x.toList.length)
      have hread := (Lexeme.ident hx).lexFrom (fun _ _ => hcs) mayEnd pos
      refine ⟨_, hread.trans (congrArg _ hls), ?_⟩
      rw [List.map_cons, hvalues]

/-- A source text that spells at least one token is cut into the tokens that it spells. -/
theorem lex_of_spells {source : String} {ts : List Token} (h : Spells source.toList ts)
    (hts : ts ≠ []) : ∃ ls, lex source = .ok ls ∧ ls.map Located.value = ts :=
  h.lexFrom (fun hnil => absurd hnil hts) 0

end Token

end NamedLambda
