import Reparse.Proofs.Assembly

/-!
# Conservation of comments

No comment of a text is lost and none is found twice. Each is with exactly one node of the tree,
unless it was with a node within the target of an assignment that had to make way for a stand-in:
then it is nowhere. No node has its comments in another order than the text has.
-/

namespace Reparse

open Reparse.Parser

theorem Assembled.count_gathered {tokens : Array Token} {p : Program Info} {f : Findings}
    (h : Assembled tokens p f) (hnodup : tokens.toList.Nodup) (t : Token) :
    (Outline.gathered [p.outline]).count t =
      if t ∈ tokens ∧ t.kind = .comment ∧ t ∉ f.dropped then 1 else 0 := by
  have hkept := h.kept t
  by_cases hcomment : t ∈ tokens.toList.filter Token.isComment
  · rw [List.count_eq_one_of_mem (hnodup.filter _) hcomment] at hkept
    obtain ⟨htokens, hkind⟩ := List.mem_filter.mp hcomment
    have htokens : t ∈ tokens := Array.mem_toList_iff.mp htokens
    have hkind : t.kind = .comment := of_decide_eq_true hkind
    by_cases hdropped : t ∈ f.dropped
    · have hpos := List.count_pos_iff.mpr hdropped
      rw [if_neg fun hall => hall.2.2 hdropped]
      omega
    · rw [List.count_eq_zero.mpr hdropped] at hkept
      rw [if_pos ⟨htokens, hkind, hdropped⟩]
      omega
  · rw [List.count_eq_zero.mpr hcomment] at hkept
    rw [if_neg fun hall => hcomment (List.mem_filter.mpr
      ⟨Array.mem_toList_iff.mpr hall.1, decide_eq_true hall.2.1⟩)]
    omega

/-- Of all tokens just the comments are found with the nodes of a tree, each of them once, but for
those within the rejected targets that are reported. Every node has its comments in the order of the
source. -/
theorem Session.count_gathered_parse (source : Text) (ops : List SessionOp) :
    let s := (ofSource source).run ops
    let result := parse s.stream s.memo
    let tokens := result.2.1.tokens
    let tree := result.1.program.outline
    ∃ targets : List (Expression Info),
      (∀ target ∈ targets, Rejected tokens target) ∧
      (result.1.reports.filter fun r => r.code = .notAssignable) = targets.map .rejection ∧
      (∀ t, (Outline.gathered [tree]).count t =
        if t ∈ tokens ∧ t.kind = .comment ∧
          t ∉ targets.flatMap (fun target => Outline.gathered [target.outline]) then 1 else 0) ∧
      ∀ o ∈ tree.nodes, o.comments.Sublist tokens.toList := by
  intro s result tokens tree
  have hvalid : s.Valid := (valid_ofSource source).run ops
  have hnumbered := (TokenStream.follows_readAll hvalid.numbered).numbered
  obtain ⟨f, hreports, h⟩ := hvalid.assembled
  refine ⟨f.targets, h.told.rejected, ?_, h.count_gathered hnumbered.nodup_tokens, h.ordered⟩
  rw [← h.told.targets, ← hreports]

end Reparse
