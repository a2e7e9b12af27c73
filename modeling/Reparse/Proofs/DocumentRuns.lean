import Reparse.Document
import Reparse.Proofs.MemoTransparency

/-!
# Runs of documents

A document keeps the results of its last parse until it is changed. Whatever is done to it, results
that are kept are those that parsing the present stream gives, and the memo fits that stream.
-/

namespace Reparse

inductive DocumentOp
  | load (source : Text)
  | edit (start count : Nat) (inserted : Text)
  | parse
  | diagnostics
  | stats
  | nodeAt (p : Position)
  deriving Repr

def bareDiagnostics (s : TokenStream) : List Diagnostic :=
  s.diagnostics ++
    (bareProgram s.tokens).2.reports.toList.map (Report.diagnostic s.timeline.resolve)

structure Parsed.Current (parsed : Parsed) (policy : Policy) (s : TokenStream) : Prop where
  program : parsed.program = (bareProgram s.tokens).1
  diagnostics : parsed.diagnostics = policy.finish (bareDiagnostics s)

namespace Document

def perform (d : Document) : DocumentOp → Document
  | .load source =>
    match d.load source with
    | .ok _ d' | .error _ d' => d'
  | .edit start count inserted =>
    match d.edit start count inserted with
    | .ok _ d' | .error _ d' => d'
  | .parse | .diagnostics | .stats => d.parse.2
  | .nodeAt p => (d.nodeAt? p).2

/-- The memo fits the stream, and results that are kept are those of the stream. -/
structure Settled (d : Document) (policy : Policy) : Prop where
  shown : d.policy = policy
  session : Session.Valid ⟨d.stream, d.memo⟩
  parsed : ∀ parsed, d.parsed? = some parsed →
    d.stream.isComplete = true ∧ parsed.Current policy d.stream

variable {d : Document} {policy : Policy}

theorem load_of_le (d : Document) {source : Text} (h : Text.size source ≤ maxCoordinate) :
    d.load source =
      .ok () { d with stream := .ofSource source, memo := .empty, parsed? := none } := by
  rw [load]
  exact if_neg (Nat.not_lt.mpr h)

theorem load_of_lt (d : Document) {source : Text} (h : maxCoordinate < Text.size source) :
    d.load source = .error (.tooLarge (Text.size source)) d := by
  rw [load]
  exact if_pos h

theorem perform_edit_of_ok {start count : Nat} {inserted : Text} {m : Mutation} {s' : TokenStream}
    (h : d.stream.edit start count inserted = .ok m s') :
    d.perform (.edit start count inserted) =
      { d with stream := s', memo := (d.memo.forget m.removed).2, parsed? := none } := by
  simp only [Document.perform, Document.edit, h]

theorem perform_edit_of_error {start count : Nat} {inserted : Text} {e : EditError}
    {s' : TokenStream} (h : d.stream.edit start count inserted = .error e s') :
    d.perform (.edit start count inserted) = d := by
  obtain ⟨-, rfl⟩ := TokenStream.edit_refused h
  simp only [Document.perform, Document.edit, h]

theorem snd_run (d : Document) : d.run.2 = (Reparse.parse d.stream d.memo).2 := by
  rw [run]

theorem parse_of_some {parsed : Parsed} (h : d.parsed? = some parsed) : d.parse = (parsed, d) := by
  simp only [Document.parse, h]

theorem parse_of_none (h : d.parsed? = none) : d.parse =
    (d.run.1, { d with stream := d.run.2.1, memo := d.run.2.2, parsed? := some d.run.1 }) := by
  simp only [Document.parse, h]

namespace Settled

theorem of_session (h : d.policy = policy) (hsession : Session.Valid ⟨d.stream, d.memo⟩)
    (hparsed : d.parsed? = none) : d.Settled policy := by
  refine ⟨h, hsession, fun parsed heq => ?_⟩
  rw [hparsed] at heq
  cases heq

theorem new (policy : Policy) : ({ policy } : Document).Settled policy :=
  .of_session rfl (Session.valid_ofSource []) rfl

theorem run (h : d.Settled policy) :
    d.run.1.Current d.policy d.stream.readAll ∧ d.run.2.1 = d.stream.readAll ∧
      Session.Valid ⟨d.stream.readAll, d.run.2.2⟩ := by
  have htrusted := Session.trusted h.session
  have hread := h.session.follows (TokenStream.follows_readAll h.session.numbered)
  obtain ⟨hprogram, hreports⟩ := parse_eq_bare h.session.numbered htrusted hread.memo
  refine ⟨⟨hprogram, ?_⟩, rfl, h.session.apply .parse⟩
  have hdiagnostics : d.run.1.diagnostics = d.policy.finish (d.stream.readAll.diagnostics ++
      (Reparse.parse d.stream d.memo).1.reports.map
        (Report.diagnostic d.stream.readAll.timeline.resolve)) := rfl
  rw [hdiagnostics, hreports]
  rfl

theorem parse (h : d.Settled policy) :
    d.parse.1.Current policy d.stream.readAll ∧ d.parse.2.stream = d.stream.readAll ∧
      d.parse.2.Settled policy := by
  cases hparsed : d.parsed? with
  | some parsed =>
    obtain ⟨hcomplete, hcurrent⟩ := h.parsed parsed hparsed
    rw [parse_of_some hparsed, TokenStream.readAll_of_isComplete hcomplete]
    exact ⟨hcurrent, rfl, h⟩
  | none =>
    obtain ⟨hcurrent, hstream, hsession⟩ := h.run
    rw [h.shown] at hcurrent
    rw [parse_of_none hparsed, hstream]
    refine ⟨hcurrent, rfl, h.shown, hsession, fun parsed heq => ?_⟩
    rw [← Option.some.inj heq]
    exact ⟨d.stream.isComplete_readAll, hcurrent⟩

theorem load (h : d.Settled policy) (source : Text) :
    (d.perform (.load source)).Settled policy := by
  rcases Nat.lt_or_ge maxCoordinate (Text.size source) with hlt | hle
  · simp only [Document.perform, d.load_of_lt hlt]
    exact h
  · simp only [Document.perform, d.load_of_le hle]
    exact .of_session h.shown (Session.valid_ofSource source) rfl

theorem edit (h : d.Settled policy) (start count : Nat) (inserted : Text) :
    (d.perform (.edit start count inserted)).Settled policy := by
  cases hedit : d.stream.edit start count inserted with
  | error e s' =>
    rw [perform_edit_of_error hedit]
    exact h
  | ok m s' =>
    have hsession := h.session.follows (TokenStream.follows_edit h.session.numbered hedit)
    rw [perform_edit_of_ok hedit]
    exact .of_session h.shown ⟨hsession.numbered, hsession.memo.forget m.removed⟩ rfl

theorem perform (h : d.Settled policy) (op : DocumentOp) : (d.perform op).Settled policy := by
  cases op with
  | load source => exact h.load source
  | edit start count inserted => exact h.edit start count inserted
  | parse => exact h.parse.2.2
  | diagnostics => exact h.parse.2.2
  | stats => exact h.parse.2.2
  | nodeAt p => exact h.parse.2.2

theorem run_ops (h : d.Settled policy) (ops : List DocumentOp) :
    (ops.foldl Document.perform d).Settled policy := by
  induction ops generalizing d with
  | nil => exact h
  | cons op ops ih => exact ih (h.perform op)

end Settled

end Document

end Reparse
