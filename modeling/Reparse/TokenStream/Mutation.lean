import Reparse.TokenStream

/-!
# Mutations

Exchanging some tokens of a stream for the tokens of a new text. Only the new text is cut again, and
what follows it as long as lexemes come out that differ from the old tokens there. From the first
old token that comes out again at its place, all old tokens stay, and move with the text.
-/

namespace Reparse

/-- What a mutation did: `inserted` took the place of `removed`, from index `first` on. -/
structure Mutation where
  first : Nat
  inserted : List Token
  removed : List Token
  deriving Repr

structure FoundLexeme where
  point : ReadPoint
  lexeme : Lexeme
  deriving DecidableEq, Repr

/-- An old token, and where it starts if it is still there after the mutation. -/
structure Survivor where
  token : Token
  start : Int
  deriving DecidableEq, Repr

namespace Survivor

def matchesLexeme (o : Survivor) (p : ReadPoint) (l : Lexeme) : Bool :=
  o.start = p.offset && o.token.kind = l.kind && o.token.text = l.text

/-- Cuts lexemes until one is an old token over again. Gives the lexemes before it, and the old
tokens from there on. Old tokens that the cutting has passed are given up. -/
def rescan : Nat → ReadPoint → List Survivor → List FoundLexeme × List Token
  | 0, _, _ => ([], [])
  | fuel + 1, p, olds =>
    match p.cut? with
    | none => ([], [])
    | some (l, next) =>
      match olds.dropWhile fun o => decide (o.start < (p.offset : Int)) with
      | [] =>
        let (found, kept) := rescan fuel next []
        (⟨p, l⟩ :: found, kept)
      | o :: rest =>
        if o.matchesLexeme p l then ([], (o :: rest).map Survivor.token)
        else
          let (found, kept) := rescan fuel next (o :: rest)
          (⟨p, l⟩ :: found, kept)

end Survivor

namespace TokenStream

def startOf (s : TokenStream) (i : Nat) : Nat × Position :=
  match s.tokens[i]? with
  | some t =>
    let l := s.location t
    (l.span.start, l.range.start)
  | none => (Text.size s.source, s.point.position)

def endOf (s : TokenStream) (first count : Nat) : Nat × Position :=
  match count, s.tokens[first + count - 1]? with
  | _ + 1, some t =>
    let l := s.location t
    (l.span.stop, l.range.stop)
  | _, _ => s.startOf first

def makeAll : List FoundLexeme → TokenStream → List (Token × Option Code) × TokenStream
  | [], s => ([], s)
  | f :: fs, s =>
    let (t, s) := s.make f.point f.lexeme
    let (made, s) := makeAll fs s
    ((t, f.lexeme.fault) :: made, s)

def endPoint (s : TokenStream) : ReadPoint where
  offset := Text.size s.source
  position := (s.tokens.back?.map fun t => (s.location t).range.stop).getD .origin
  rest := []

def restart (s : TokenStream) (source : Text) : Mutation × TokenStream :=
  let s := { s with source, point := .start source, reporter := s.reporter.clear }.readAll
  (⟨0, s.tokens.toList, []⟩, s)

/-- Exchanges `count` tokens, counted from index `first`, for the tokens of `text`. Reports about
tokens before the exchanged ones and about kept tokens behind them stay; the sink afterwards holds
what the inserted tokens brought. -/
def exchange (s : TokenStream) (first count : Nat) (text : Text) : Mutation × TokenStream :=
  let (start, startPos) := s.startOf first
  let (stop, stopPos) := s.endOf first count
  let shift := Shift.ofReplacement start stop startPos stopPos text
  let source := Text.splice start stop text s.source
  let olds := (s.tokens.toList.drop (first + count)).map fun t =>
    (⟨t, ((s.location t).span.start : Int) + shift.byteOffset⟩ : Survivor)
  let rest := Text.dropBytes start source
  let (found, kept) := Survivor.rescan rest.length ⟨start, startPos, rest⟩ olds
  let removed := (s.tokens.toList.drop first).take (s.tokens.size - first - kept.length)
  let startOfReport (r : Report Anchor) : Nat := (r.location s.timeline.resolve).span.start
  let before := s.reporter.recorded.filter fun r => startOfReport r < start
  let behind := match kept with
    | [] => #[]
    | t :: _ => s.reporter.recorded.filter fun r =>
      start ≤ startOfReport r && (s.location t).span.start ≤ startOfReport r
  let timeline := (removed.foldl (fun l t => l.freeze t.id) s.timeline).record shift
  let (made, s') := makeAll found { s with source, timeline }
  let inserted := made.map Prod.fst
  let s' := { s' with
    tokens := (s.tokens.toList.take first ++ inserted ++ kept).toArray
    reporter := { s'.reporter with recorded := before } }
  let s' := made.foldl (fun r (t, fault) => r.reportFault t fault) { s' with point := s'.endPoint }
  (⟨first, inserted, removed⟩, { s' with reporter := behind.foldl Reporter.record s'.reporter })

/-- Exchanges tokens in a stream that may not have been read to its end yet. Indices past the end
count as the end. -/
def mutate (s : TokenStream) (first count : Nat) (text : Text) : Mutation × TokenStream :=
  let s := s.readAllMuted
  let s := { s with reporter := s.reporter.emptySink }
  if s.tokens.isEmpty then s.restart text
  else
    let first := min first s.tokens.size
    s.exchange first (min count (s.tokens.size - first)) text

end TokenStream

end Reparse
