import Reparse.Proofs.Tree.Parts

/-!
# Chains of logical operators

Logical operators group to the left, so a chain of them is a node, its left operand, the left
operand of that, and so on as long as the operators are logical. A chain is a maximal one if it is
not the left operand of one more logical operator. Parentheses, calls and elements begin new chains.
-/

namespace Reparse

variable {α : Type}

structure Link (α : Type) where
  operator : BinaryOperator
  left : Expression α

namespace Link

def departs (first l : Link α) : Bool := l.operator ≠ first.operator

/-- The first operator that differs from the one that its chain begins with. -/
def change? : List (Link α) → Option (Link α)
  | [] => none
  | first :: rest => rest.find? first.departs

def mixes (links : List (Link α)) : Bool :=
  links.any (fun l => l.operator = .and) && links.any fun l => l.operator = .or

def fresh? (links : List (Link α)) (l : Link α) : Option (Link α) :=
  match change? links, links.head? with
  | none, some first => if first.departs l then some l else none
  | _, _ => none

theorem eq_of_fresh? {links : List (Link α)} {l m : Link α} (h : fresh? links l = some m) :
    l = m := by
  unfold fresh? at h
  split at h
  · split at h
    · exact Option.some.inj h
    · cases h
  · cases h

theorem change?_concat (links : List (Link α)) (l : Link α) :
    (change? (links ++ [l])).toList = (change? links).toList ++ (fresh? links l).toList := by
  cases links with
  | nil => rfl
  | cons first rest =>
    have hconcat : change? (first :: rest ++ [l]) =
        (rest.find? first.departs).or ([l].find? first.departs) := List.find?_append
    rw [hconcat]
    cases hfind : rest.find? first.departs with
    | some m => simp [change?, fresh?, hfind]
    | none => cases hdeparts : first.departs l <;> simp [change?, fresh?, hfind, hdeparts]

theorem isSome_change?_concat (links : List (Link α)) (l : Link α) :
    (change? (links ++ [l])).isSome = ((change? links).isSome || (fresh? links l).isSome) := by
  have hlists := congrArg List.isEmpty (change?_concat links l)
  generalize change? (links ++ [l]) = after, change? links = before, fresh? links l = new
    at hlists ⊢
  cases after <;> cases before <;> cases new <;> first | rfl | cases hlists

theorem isSome_change? {links : List (Link α)}
    (h : ∀ l ∈ links, l.operator.precedence = .logical) :
    (change? links).isSome = mixes links := by
  cases links with
  | nil => rfl
  | cons first rest =>
    have hcases : ∀ l ∈ first :: rest, l.operator = .and ∨ l.operator = .or := by
      intro l hl
      have hlogical := h l hl
      cases hop : l.operator <;> simp [hop, BinaryOperator.precedence] at hlogical ⊢
    obtain ⟨hfirst, hrest⟩ := List.forall_mem_cons.mp hcases
    rw [Bool.eq_iff_iff, change?, List.find?_isSome, mixes, List.any_cons, List.any_cons]
    simp only [departs, Bool.and_eq_true, Bool.or_eq_true, List.any_eq_true, decide_eq_true_eq]
    constructor
    · rintro ⟨l, hl, hdiffers⟩
      rcases hfirst with hand | hor
      · exact ⟨.inl hand, .inr ⟨l, hl, (hrest l hl).resolve_left (hand ▸ hdiffers)⟩⟩
      · exact ⟨.inr ⟨l, hl, (hrest l hl).resolve_right (hor ▸ hdiffers)⟩, .inl hor⟩
    · rintro ⟨hand, hor⟩
      rcases hand with hand | ⟨l, hl, hand⟩
      · rcases hor with hor | ⟨l, hl, hor⟩
        · cases hand.symm.trans hor
        · exact ⟨l, hl, by rw [hand, hor]; decide⟩
      · rcases hor with hor | ⟨m, hm, hor⟩
        · exact ⟨l, hl, by rw [hand, hor]; decide⟩
        · rcases hfirst with hfirst | hfirst
          · exact ⟨m, hm, by rw [hor, hfirst]; decide⟩
          · exact ⟨l, hl, by rw [hand, hfirst]; decide⟩

end Link

namespace Expression

def links : Expression α → List (Link α)
  | .binary operator left _ _ =>
    if operator.precedence = .logical then left.links ++ [⟨operator, left⟩] else []
  | _ => []

def chain (e : Expression α) : List (List (Link α)) := if e.links.isEmpty then [] else [e.links]

mutual

/-- The maximal chains within an expression, without the one that the expression is itself. -/
def innerChains : Expression α → List (List (Link α))
  | .literal .. | .name .. | .missing => []
  | .binary operator left right _ =>
    (if operator.precedence = .logical then [] else left.chain) ++ left.innerChains ++
      (right.chain ++ right.innerChains)
  | .unary _ operand _ => operand.chain ++ operand.innerChains
  | .member base _ _ => base.chain ++ base.innerChains
  | .invoke callee arguments _ => callee.chain ++ callee.innerChains ++ listChains arguments
  | .index base place _ =>
    base.chain ++ base.innerChains ++ (place.chain ++ place.innerChains)
  | .paren body _ => body.chain ++ body.innerChains
  | .array items _ => listChains items
  | .object fields _ => fieldChains fields

def listChains : List (Expression α) → List (List (Link α))
  | [] => []
  | e :: es => e.chain ++ e.innerChains ++ listChains es

def fieldChains : List (Field α (Expression α)) → List (List (Link α))
  | [] => []
  | ⟨_, value, _⟩ :: fields => value.chain ++ value.innerChains ++ fieldChains fields

end

def chains (e : Expression α) : List (List (Link α)) := e.chain ++ e.innerChains

theorem listChains_eq (es : List (Expression α)) : listChains es = es.flatMap chains := by
  induction es with
  | nil => rfl
  | cons e es ih => rw [listChains, ih, List.flatMap_cons]; rfl

theorem fieldChains_eq (fields : List (Field α (Expression α))) :
    fieldChains fields = fields.flatMap fun f => f.value.chains := by
  induction fields with
  | nil => rfl
  | cons f fields ih => rw [fieldChains, ih, List.flatMap_cons]; rfl

theorem links_logical : (e : Expression α) → ∀ l ∈ e.links, l.operator.precedence = .logical
  | .binary operator left _ _ => by
    intro l hl
    rw [links] at hl
    split at hl
    next hlogical =>
      rcases List.mem_append.mp hl with hl | hl
      · exact links_logical left l hl
      · rw [List.mem_singleton.mp hl]
        exact hlogical
    next => exact absurd hl List.not_mem_nil
  | .literal .. | .name .. | .unary .. | .member .. | .invoke .. | .index .. | .paren .. | .array ..
  | .object .. | .missing => fun _ hl => absurd hl List.not_mem_nil

theorem chain_logical (e : Expression α) :
    ∀ links ∈ e.chain, ∀ l ∈ links, l.operator.precedence = .logical := by
  intro links hlinks
  unfold chain at hlinks
  split at hlinks
  · exact absurd hlinks List.not_mem_nil
  · rw [List.mem_singleton.mp hlinks]
    exact links_logical e

mutual

theorem innerChains_logical : (e : Expression α) →
    ∀ links ∈ e.innerChains, ∀ l ∈ links, l.operator.precedence = .logical
  | .literal .. | .name .. | .missing => nofun
  | .binary _ left right _ => by
    refine List.forall_mem_append.mpr ⟨List.forall_mem_append.mpr ⟨?_, innerChains_logical left⟩,
      List.forall_mem_append.mpr ⟨chain_logical right, innerChains_logical right⟩⟩
    split
    · nofun
    · exact chain_logical left
  | .unary _ operand _ =>
    List.forall_mem_append.mpr ⟨chain_logical operand, innerChains_logical operand⟩
  | .member base _ _ => List.forall_mem_append.mpr ⟨chain_logical base, innerChains_logical base⟩
  | .invoke callee arguments _ =>
    List.forall_mem_append.mpr ⟨List.forall_mem_append.mpr
      ⟨chain_logical callee, innerChains_logical callee⟩, listChains_logical arguments⟩
  | .index base place _ =>
    List.forall_mem_append.mpr ⟨List.forall_mem_append.mpr
      ⟨chain_logical base, innerChains_logical base⟩,
      List.forall_mem_append.mpr ⟨chain_logical place, innerChains_logical place⟩⟩
  | .paren body _ => List.forall_mem_append.mpr ⟨chain_logical body, innerChains_logical body⟩
  | .array items _ => listChains_logical items
  | .object fields _ => fieldChains_logical fields

theorem listChains_logical : (es : List (Expression α)) →
    ∀ links ∈ listChains es, ∀ l ∈ links, l.operator.precedence = .logical
  | [] => nofun
  | e :: es => List.forall_mem_append.mpr ⟨List.forall_mem_append.mpr
      ⟨chain_logical e, innerChains_logical e⟩, listChains_logical es⟩

theorem fieldChains_logical : (fields : List (Field α (Expression α))) →
    ∀ links ∈ fieldChains fields, ∀ l ∈ links, l.operator.precedence = .logical
  | [] => nofun
  | ⟨_, value, _⟩ :: fields => List.forall_mem_append.mpr ⟨List.forall_mem_append.mpr
      ⟨chain_logical value, innerChains_logical value⟩, fieldChains_logical fields⟩

end

theorem chains_logical (e : Expression α) :
    ∀ links ∈ e.chains, ∀ l ∈ links, l.operator.precedence = .logical :=
  List.forall_mem_append.mpr ⟨chain_logical e, innerChains_logical e⟩

def isLogical : Expression α → Bool
  | .binary operator .. => operator.precedence = .logical
  | _ => false

theorem flatten_chain (e : Expression α) : e.chain.flatten = e.links := by
  unfold chain
  cases hlinks : e.links with
  | nil => rfl
  | cons first rest => exact List.append_nil _

theorem length_chains_of {e : Expression α}
    (h : e.links.length + e.innerChains.flatten.length = e.parts.countP isLogical) :
    (e.chain ++ e.innerChains).flatten.length = e.parts.countP isLogical := by
  rw [List.flatten_append, List.length_append, flatten_chain, h]

mutual

theorem length_links : (e : Expression α) →
    e.links.length + e.innerChains.flatten.length = e.parts.countP isLogical
  | .literal .. | .name .. | .missing => rfl
  | .binary operator left right info => by
    have hleft := length_links left
    have hright := length_chains_of (length_links right)
    have hparts : (binary operator left right info).parts.countP isLogical =
        (left.parts.countP isLogical + right.parts.countP isLogical) +
          if operator.precedence = .logical then 1 else 0 := by
      rw [parts, inner, List.countP_cons, List.countP_append]
      simp only [isLogical, decide_eq_true_eq]
      rfl
    rw [hparts, links, innerChains, List.flatten_append, List.length_append, hright]
    -- Below a logical operator the left operand is of the same chain, else it is one of its own.
    by_cases hlogical : operator.precedence = .logical
    · simp only [if_pos hlogical, List.nil_append, List.length_append, List.length_singleton]
      omega
    · simp only [if_neg hlogical, List.length_nil]
      rw [length_chains_of hleft]
      omega
  | .unary _ operand _ => (Nat.zero_add _).trans (length_chains_of (length_links operand))
  | .member base _ _ => (Nat.zero_add _).trans (length_chains_of (length_links base))
  | .invoke callee arguments info => by
    have hcallee := length_chains_of (length_links callee)
    have hparts : (invoke callee arguments info).parts.countP isLogical =
        callee.parts.countP isLogical + (listParts arguments).countP isLogical := by
      rw [parts, inner, List.countP_cons, List.countP_append]
      rfl
    refine (Nat.zero_add _).trans ?_
    rw [hparts, innerChains, List.flatten_append, List.length_append, hcallee,
      length_listChains arguments]
  | .index base place info => by
    have hbase := length_chains_of (length_links base)
    have hplace := length_chains_of (length_links place)
    have hparts : (index base place info).parts.countP isLogical =
        base.parts.countP isLogical + place.parts.countP isLogical := by
      rw [parts, inner, List.countP_cons, List.countP_append]
      rfl
    refine (Nat.zero_add _).trans ?_
    rw [hparts, innerChains, List.flatten_append, List.length_append, hbase, hplace]
  | .paren body _ => (Nat.zero_add _).trans (length_chains_of (length_links body))
  | .array items _ => (Nat.zero_add _).trans (length_listChains items)
  | .object fields _ => (Nat.zero_add _).trans (length_fieldChains fields)

theorem length_listChains : (es : List (Expression α)) →
    (listChains es).flatten.length = (listParts es).countP isLogical
  | [] => rfl
  | e :: es => by
    rw [listChains, List.flatten_append, List.length_append, length_chains_of (length_links e),
      length_listChains es, listParts, List.countP_append]
    rfl

theorem length_fieldChains : (fields : List (Field α (Expression α))) →
    (fieldChains fields).flatten.length = (fieldParts fields).countP isLogical
  | [] => rfl
  | ⟨_, value, _⟩ :: fields => by
    rw [fieldChains, List.flatten_append, List.length_append,
      length_chains_of (length_links value), length_fieldChains fields, fieldParts,
      List.countP_append]
    rfl

end

theorem length_chains (e : Expression α) :
    e.chains.flatten.length = e.parts.countP isLogical :=
  length_chains_of (length_links e)

def changes (e : Expression α) : List (Link α) := e.chains.filterMap Link.change?

def innerChanges (e : Expression α) : List (Link α) := e.innerChains.filterMap Link.change?

theorem changes_eq (e : Expression α) :
    e.changes = (Link.change? e.links).toList ++ e.innerChanges := by
  have hchain : e.chain.filterMap Link.change? = (Link.change? e.links).toList := by
    unfold chain
    cases hlinks : e.links with
    | nil => rfl
    | cons first rest =>
      rw [List.isEmpty_cons, if_neg Bool.false_ne_true, List.filterMap_cons]
      cases Link.change? (first :: rest) <;> rfl
  rw [changes, chains, List.filterMap_append, hchain]
  rfl

section

variable {operator : BinaryOperator} {left right : Expression α} {info : α}

theorem changes_of_logical (h : operator.precedence = .logical) :
    (binary operator left right info).changes =
      ((Link.change? left.links).toList ++ (Link.fresh? left.links ⟨operator, left⟩).toList) ++
        (left.innerChanges ++ right.changes) := by
  rw [changes_eq, links, if_pos h, Link.change?_concat, innerChanges, innerChains, if_pos h,
    List.nil_append, List.filterMap_append]
  rfl

theorem perm_changes (h : operator.precedence = .logical) :
    ((left.changes ++ (Link.fresh? left.links ⟨operator, left⟩).toList) ++ right.changes).Perm
      (binary operator left right info).changes := by
  rw [changes_of_logical h, changes_eq left, List.append_assoc, List.append_assoc,
    List.append_assoc]
  refine .append_left _ ?_
  rw [← List.append_assoc, ← List.append_assoc]
  exact .append_right _ List.perm_append_comm

theorem links_of_logical (h : operator.precedence = .logical) :
    (binary operator left right info).links = left.links ++ [⟨operator, left⟩] := if_pos h

theorem changes_of_not_logical (h : operator.precedence ≠ .logical) :
    (binary operator left right info).changes = left.changes ++ right.changes := by
  rw [changes_eq, links, if_neg h, innerChanges, innerChains, if_neg h, List.filterMap_append]
  rfl

end

theorem changes_array (items : List (Expression α)) {info : α} :
    (array items info).changes = items.flatMap changes := by
  change (listChains items).filterMap Link.change? = _
  rw [listChains_eq, List.filterMap_flatMap]
  rfl

theorem changes_object (fields : List (Field α (Expression α))) {info : α} :
    (object fields info).changes = fields.flatMap fun f => f.value.changes := by
  change (fieldChains fields).filterMap Link.change? = _
  rw [fieldChains_eq, List.filterMap_flatMap]
  rfl

theorem changes_invoke (callee : Expression α) (arguments : List (Expression α)) {info : α} :
    (invoke callee arguments info).changes = callee.changes ++ arguments.flatMap changes := by
  change (callee.chains ++ listChains arguments).filterMap Link.change? = _
  rw [List.filterMap_append, listChains_eq, List.filterMap_flatMap]
  rfl

theorem changes_index (base place : Expression α) {info : α} :
    (index base place info).changes = base.changes ++ place.changes := by
  change (base.chains ++ place.chains).filterMap Link.change? = _
  rw [List.filterMap_append]
  rfl

end Expression

namespace Program

def chains (p : Program α) : List (List (Link α)) := p.expressions.flatMap Expression.chains

theorem length_chains (p : Program α) : p.chains.flatten.length =
    (p.expressions.flatMap Expression.parts).countP Expression.isLogical := by
  rw [chains]
  induction p.expressions with
  | nil => rfl
  | cons e es ih =>
    rw [List.flatMap_cons, List.flatten_append, List.length_append, e.length_chains, ih,
      List.flatMap_cons, List.countP_append]

theorem filter_mixes (p : Program α) :
    p.chains.filter Link.mixes = p.chains.filter fun links => (Link.change? links).isSome := by
  refine List.filter_congr fun links hlinks => (Link.isSome_change? ?_).symm
  obtain ⟨e, -, hlinks⟩ := List.mem_flatMap.mp hlinks
  exact e.chains_logical links hlinks

end Program

end Reparse
