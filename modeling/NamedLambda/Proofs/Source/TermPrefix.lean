/-
NamedLambda/Proofs/Source/TermPrefix.lean

What a reader of terms has read when it has come to a state, and that it accepts nothing but what
the grammar derives.

The tokens up to a state fall into pieces: those that have opened each frame of its stack, and the
phrase that is being read on top of them (`Consumed`).  A token more makes a longer last piece or
moves pieces into one another; a closing parenthesis does so once for every abstraction that it
closes, and so does the end of the text.  When everything is closed there is one piece left, and it
is a derivation of the term.

Main facts: `accepts_iff_derives` says that reader and grammar agree on every list of tokens, and
`Derives.unique` that there is only one term to agree on.
-/
import NamedLambda.Proofs.Source.TermReader

namespace NamedLambda

namespace TermReader

/-! ### What has been read -/

/-- The tokens `ts` write the operator that another atom is applied to, if there is one. -/
def WritesOperator : Option Term → List Token → Prop
  | none, ts => ts = []
  | some f, ts => Derives .application ts f

/-- The tokens `ts` open the frames of `stack`, the outermost first. -/
inductive Opens : List Token → List Frame → Prop
  | nil : Opens [] []
  | binder {ts : List Token} {stack : List Frame} (x : Name) :
      Opens ts stack → Opens (ts ++ [.lambda, .ident x, .dot]) (.binder x :: stack)
  | group {ts us : List Token} {operator : Option Term} {stack : List Frame} :
      Opens ts stack → WritesOperator operator us →
        Opens (ts ++ us ++ [.openParen]) (.group operator :: stack)

/-- The tokens `ts` lead to the state `r`. -/
inductive Consumed : List Token → TermReader → Prop
  | start {ts : List Token} {stack : List Frame} : Opens ts stack → Consumed ts (start stack)
  | parameter {ts : List Token} {stack : List Frame} :
      Opens ts stack → Consumed (ts ++ [.lambda]) (parameter stack)
  | dot {ts : List Token} {stack : List Frame} (x : Name) :
      Opens ts stack → Consumed (ts ++ [.lambda, .ident x]) (dot x stack)
  | applying {ts us : List Token} {t : Term} {stack : List Frame} :
      Opens ts stack → Derives .application us t → Consumed (ts ++ us) (applying t stack)

/-- An operator and an atom after it are an application. -/
theorem WritesOperator.derives {operator : Option Term} {ts us : List Token} {t : Term}
    (h : WritesOperator operator ts) (ht : Derives .atom us t) :
    Derives .application (ts ++ us) (joined operator t) := by
  cases operator with
  | none =>
      obtain rfl : ts = [] := h
      exact .single ht
  | some f => exact .juxtaposed h ht

/-! ### One more token -/

/-- After an opening parenthesis a term begins inside of it. -/
theorem consumed_openParen {ts us : List Token} {operator : Option Term} {stack : List Frame}
    (hopen : Opens ts stack) (h : WritesOperator operator us) :
    Consumed (ts ++ us ++ [.openParen]) (start (.group operator :: stack)) :=
  .start (.group hopen h)

/-- A closing parenthesis makes the term before it the body of the open abstractions, and the
outermost of them an atom. -/
theorem consumed_close {ts us : List Token} {t : Term} {stack : List Frame} {r : TermReader}
    (hopen : Opens ts stack) (ht : Derives .term us t) (h : close t stack = some r) :
    Consumed (ts ++ us ++ [.closeParen]) r := by
  induction hopen generalizing us t with
  | nil => cases h
  | @binder ts stack x _ ih =>
      have hbody := ih (.abstraction ht) h
      simpa using hbody
  | @group ts vs operator stack hopen hoperator _ =>
      rw [close_group] at h
      obtain rfl := Option.some.inj h
      have happ := Consumed.applying hopen (hoperator.derives (.group ht))
      simpa using happ

/-- **What has been read stays known with every token more.** -/
theorem Consumed.step {ts : List Token} {r r' : TermReader} {token : Token}
    (h : Consumed ts r) (hstep : r.step token = some r') : Consumed (ts ++ [token]) r' := by
  cases h with
  | @start ts stack hopen =>
      cases token with
      | ident x =>
          obtain rfl := Option.some.inj hstep
          exact .applying hopen (.single (.ident x))
      | openParen =>
          obtain rfl := Option.some.inj hstep
          have hnone : WritesOperator none [] := rfl
          have hgroup := consumed_openParen hopen hnone
          simpa using hgroup
      | lambda =>
          obtain rfl := Option.some.inj hstep
          exact .parameter hopen
      | _ => cases hstep
  | @parameter ts stack hopen =>
      cases token with
      | ident x =>
          obtain rfl := Option.some.inj hstep
          have hdot := Consumed.dot x hopen
          simpa using hdot
      | _ => cases hstep
  | @dot ts stack x hopen =>
      cases token with
      | dot =>
          obtain rfl := Option.some.inj hstep
          have hbinder := Consumed.start (.binder x hopen)
          simpa using hbinder
      | _ => cases hstep
  | @applying ts us t stack hopen ht =>
      cases token with
      | ident x =>
          obtain rfl := Option.some.inj hstep
          have happ := Consumed.applying hopen (.juxtaposed ht (.ident x))
          simpa using happ
      | openParen =>
          obtain rfl := Option.some.inj hstep
          exact consumed_openParen hopen ht
      | closeParen => exact consumed_close hopen (.application ht) hstep
      | _ => cases hstep

theorem Consumed.feed {ts us : List Token} {r r' : TermReader} (h : Consumed ts r)
    (hfeed : automaton.feed r us = some r') : Consumed (ts ++ us) r' :=
  Automaton.feed_preserves (fun _ _ _ _ hread hstep => hread.step hstep) h hfeed

/-! ### The end of the text -/

/-- The end of the text closes the abstractions that are still open. -/
theorem derives_of_complete {ts us : List Token} {t u : Term} {stack : List Frame}
    (hopen : Opens ts stack) (ht : Derives .term us t) (h : complete t stack = some u) :
    Derives .term (ts ++ us) u := by
  induction hopen generalizing us t with
  | nil =>
      obtain rfl := Option.some.inj h
      exact ht
  | @binder ts stack x _ ih =>
      have hbody := ih (.abstraction ht) h
      simpa using hbody
  | group _ _ _ => cases h

theorem Consumed.derives_of_finish {ts : List Token} {r : TermReader} {t : Term}
    (h : Consumed ts r) (hfinish : r.finish = some t) : Derives .term ts t := by
  cases h with
  | applying hopen ht => exact derives_of_complete hopen (.application ht) hfinish
  | _ => cases hfinish

/-! ### Reader and grammar -/

theorem consumed_start : Consumed [] (start []) :=
  .start .nil

/-- **The reader accepts a list of tokens exactly if the grammar derives a term from it**, and then
gives that term. -/
theorem accepts_iff_derives {ts : List Token} {t : Term} :
    automaton.Accepts ts t ↔ Derives .term ts t := by
  constructor
  · rintro ⟨r, hfeed, hfinish⟩
    exact (consumed_start.feed hfeed).derives_of_finish hfinish
  · exact accepts_of_derives

end TermReader

/-- A list of tokens stands for at most one term. -/
theorem Derives.unique {ts : List Token} {t u : Term} (ht : Derives .term ts t)
    (hu : Derives .term ts u) : t = u :=
  (TermReader.accepts_of_derives ht).unique (TermReader.accepts_of_derives hu)

end NamedLambda
