/-
NamedLambda/Proofs/Source/TermReader.lean

The grammar of terms, and that the reader accepts what the grammar derives.

A phrase that is derived from the grammar can stand in many places of a text.  What the reader does
with it depends on what is open around it only in that the phrase is read on top of that and leaves
it as it was (`ReadsAs`), except for abstractions: they stay open until the text goes on with a
closing parenthesis or ends, and it makes no difference by then whether they were closed before
(`HasRead`).
-/
import NamedLambda.Proofs.Source.Automaton
import NamedLambda.Source.TermReader

namespace NamedLambda

/-! ### The grammar -/

/-- The kinds of phrases. -/
inductive Category where
  | term
  | application
  | atom

/-- The tokens `ts` are a phrase of the given kind, and it stands for `t`. -/
inductive Derives : Category → List Token → Term → Prop
  | abstraction {x : Name} {ts : List Token} {b : Term} :
      Derives .term ts b → Derives .term (.lambda :: .ident x :: .dot :: ts) (.abs x b)
  | application {ts : List Token} {t : Term} : Derives .application ts t → Derives .term ts t
  | single {ts : List Token} {t : Term} : Derives .atom ts t → Derives .application ts t
  | juxtaposed {ts us : List Token} {f a : Term} :
      Derives .application ts f → Derives .atom us a → Derives .application (ts ++ us) (.app f a)
  | ident (x : Name) : Derives .atom [.ident x] (.var x)
  | group {ts : List Token} {t : Term} :
      Derives .term ts t → Derives .atom (.openParen :: (ts ++ [.closeParen])) t

/-- There are no empty phrases. -/
theorem Derives.ne_nil {c : Category} {ts : List Token} {t : Term} (h : Derives c ts t) :
    ts ≠ [] := by
  induction h with
  | abstraction _ _ => exact List.cons_ne_nil _ _
  | application _ ih => exact ih
  | single _ ih => exact ih
  | juxtaposed _ _ ihf _ => exact List.append_ne_nil_of_left_ne_nil ihf _
  | ident x => exact List.cons_ne_nil _ _
  | group _ _ => exact List.cons_ne_nil _ _

namespace TermReader

theorem automaton_step (r : TermReader) (token : Token) :
    automaton.step r token = r.step token := rfl

/-! ### Places where an atom can stand -/

/-- The reader before another atom, `operator` being the application up to there. -/
def beforeAtom : Option Term → List Frame → TermReader
  | none, stack => start stack
  | some f, stack => applying f stack

/-- The application after another atom. -/
def joined : Option Term → Term → Term
  | none, t => t
  | some f, t => .app f t

theorem step_ident (operator : Option Term) (stack : List Frame) (x : Name) :
    (beforeAtom operator stack).step (.ident x) =
      some (applying (joined operator (.var x)) stack) := by
  cases operator <;> rfl

theorem step_openParen (operator : Option Term) (stack : List Frame) :
    (beforeAtom operator stack).step .openParen = some (start (.group operator :: stack)) := by
  cases operator <;> rfl

theorem close_group (t : Term) (operator : Option Term) (stack : List Frame) :
    close t (.group operator :: stack) = some (applying (joined operator t) stack) := by
  cases operator <;> rfl

/-! ### Open abstractions -/

/-- The reader `r` has read the term `t`, which began when `stack` was open. -/
inductive HasRead : Term → List Frame → TermReader → Prop
  | applying (t : Term) (stack : List Frame) : HasRead t stack (applying t stack)
  | binder {x : Name} {b : Term} {stack : List Frame} {r : TermReader} :
      HasRead b (.binder x :: stack) r → HasRead (.abs x b) stack r

theorem HasRead.step_closeParen {t : Term} {stack : List Frame} {r : TermReader}
    (h : HasRead t stack r) : r.step .closeParen = close t stack := by
  induction h with
  | applying t stack => rfl
  | binder _ ih => exact ih

theorem HasRead.finish {t : Term} {stack : List Frame} {r : TermReader}
    (h : HasRead t stack r) : r.finish = complete t stack := by
  induction h with
  | applying t stack => rfl
  | binder _ ih => exact ih

/-! ### Reading what is derived -/

/-- What reading a phrase comes to, wherever the phrase stands. -/
def ReadsAs : Category → List Token → Term → Prop
  | .term, ts, t => ∀ stack, ∃ r, automaton.feed (start stack) ts = some r ∧ HasRead t stack r
  | .application, ts, t => ∀ stack, automaton.feed (start stack) ts = some (applying t stack)
  | .atom, ts, t =>
      ∀ operator stack,
        automaton.feed (beforeAtom operator stack) ts = some (applying (joined operator t) stack)

theorem readsAs_of_derives {c : Category} {ts : List Token} {t : Term} (h : Derives c ts t) :
    ReadsAs c ts t := by
  induction h with
  | @abstraction x ts b _ ih =>
      intro stack
      -- The body is read with the abstraction open, and so it remains.
      obtain ⟨r, hfeed, hread⟩ := ih (.binder x :: stack)
      exact ⟨r, hfeed, .binder hread⟩
  | application _ ih =>
      intro stack
      exact ⟨_, ih stack, .applying _ stack⟩
  | single _ ih => exact ih none
  | @juxtaposed ts us f a _ _ ihf iha =>
      intro stack
      rw [automaton.feed_append, ihf stack]
      exact iha (some f) stack
  | ident x =>
      intro operator stack
      rw [automaton.feed_cons, automaton_step, step_ident]
      rfl
  | @group ts t _ ih =>
      intro operator stack
      obtain ⟨r, hfeed, hread⟩ := ih (.group operator :: stack)
      -- The parenthesis closes the abstractions that are left open and then its own group.
      rw [automaton.feed_cons, automaton_step, step_openParen, Option.bind_some,
        automaton.feed_append, hfeed, Option.bind_some, automaton.feed_cons, automaton_step,
        hread.step_closeParen, close_group]
      rfl

/-- **The reader accepts every term of the grammar** and gives what it stands for. -/
theorem accepts_of_derives {ts : List Token} {t : Term} (h : Derives .term ts t) :
    automaton.Accepts ts t := by
  obtain ⟨r, hfeed, hread⟩ := readsAs_of_derives h []
  exact ⟨r, hfeed, hread.finish⟩

end TermReader

end NamedLambda
