/-!
# Kinds of declarations

A declaration is of some kind. Kinds are **ranked**: when a name is declared more than once, the
declaration whose kind has the lowest rank is the one the name stands for. The rank is also how a
kind is written down, so it must be possible to read it back (`Ranked.ofRank?_rank`).

`Kind` is the classification used for grammar files. Its constructors are listed by rank.
-/

namespace Gazetteer

/-- The rank of a kind, a number below 2 ^ 16. -/
abbrev Rank := Fin 65536

/-- A classification of declarations with a rank for each kind. -/
class Ranked (κ : Type) where
  /-- The rank of a kind; the lower one has priority. -/
  rank : κ → Rank
  /-- The kind of a rank. -/
  ofRank? : Rank → Option κ
  /-- The name of a kind. -/
  name : κ → String
  /-- A rank reads back as its kind. -/
  ofRank?_rank : ∀ k, ofRank? (rank k) = some k

/-- `a` takes priority over `b` for the same name. -/
def Ranked.outranks {κ : Type} [Ranked κ] (a b : κ) : Bool := rank a < rank b

/-- The kinds of declarations in a grammar file. -/
inductive Kind where
  | parserRule
  | lexerRule
  | fragment
  | mode
  | channel
  | tokensEntry
deriving DecidableEq

namespace Kind

/-- All kinds, by rank. -/
def all : List Kind := [parserRule, lexerRule, fragment, mode, channel, tokensEntry]

/-- The place of a kind in `all`. -/
def rank : Kind → Rank
  | parserRule => 0
  | lexerRule => 1
  | fragment => 2
  | mode => 3
  | channel => 4
  | tokensEntry => 5

/-- The name of a kind. -/
def name : Kind → String
  | parserRule => "ParserRule"
  | lexerRule => "LexerRule"
  | fragment => "Fragment"
  | mode => "Mode"
  | channel => "Channel"
  | tokensEntry => "TokensEntry"

/-- The words for a kind in a message to people. -/
def label : Kind → String
  | parserRule => "parser rule"
  | lexerRule => "lexer rule"
  | fragment => "fragment"
  | mode => "mode"
  | channel => "channel"
  | tokensEntry => "token"

/-- References to this kind are looked up among the names of the lexer. -/
def isLexical : Kind → Bool
  | parserRule => false
  | _ => true

instance : Ord Kind := ⟨fun a b => compare a.rank b.rank⟩

instance : Ranked Kind where
  rank := rank
  ofRank? r := all[r.val]?
  name := name
  ofRank?_rank k := by cases k <;> rfl

end Kind

end Gazetteer
