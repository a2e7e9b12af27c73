import Reparse.Proofs.Tree.Nodes

/-!
# Innermost nodes

A node of a tree is named by its path: the indices of the children on the way down from the root.
A node is an ancestor of another one if its path is a prefix of the other's. Where what covers a
node covers its parent as well, and no two siblings are covered at once, the covered nodes are one
chain from the root down, and the search for the innermost of them finds its end.
-/

namespace Reparse.Outline

variable {α : Type}

def at? (o : Outline α) : List Nat → Option (Outline α)
  | [] => some o
  | k :: path => o.children[k]?.bind fun c => c.at? path

@[simp] theorem at?_nil (o : Outline α) : o.at? [] = some o := rfl

theorem at?_cons {o n : Outline α} {k : Nat} {path : List Nat} :
    o.at? (k :: path) = some n ↔ ∃ c, o.children[k]? = some c ∧ c.at? path = some n :=
  Option.bind_eq_some_iff

mutual

theorem induction_on_children {P : Outline α → Prop}
    (step : ∀ o, (∀ c ∈ o.children, P c) → P o) : (o : Outline α) → P o
  | node _ _ _ children => step _ (forall_of_step step children)

theorem forall_of_step {P : Outline α → Prop} (step : ∀ o, (∀ c ∈ o.children, P c) → P o) :
    (os : List (Outline α)) → ∀ c ∈ os, P c
  | [] => fun _ hc => absurd hc List.not_mem_nil
  | o :: os => List.forall_mem_cons.mpr ⟨induction_on_children step o, forall_of_step step os⟩

end

theorem listNodes_eq (os : List (Outline α)) : listNodes os = os.flatMap nodes := by
  induction os with
  | nil => rfl
  | cons o os ih => rw [listNodes, ih, List.flatMap_cons]

theorem mem_nodes {o n : Outline α} : n ∈ o.nodes ↔ ∃ path, o.at? path = some n := by
  induction o using induction_on_children with
  | step o ih =>
    rw [nodes_eq, listNodes_eq, List.mem_cons, List.mem_flatMap]
    constructor
    · rintro (rfl | ⟨c, hc, hn⟩)
      · exact ⟨[], rfl⟩
      · obtain ⟨k, hk⟩ := List.mem_iff_getElem?.mp hc
        obtain ⟨path, hpath⟩ := (ih c hc).mp hn
        exact ⟨k :: path, at?_cons.mpr ⟨c, hk, hpath⟩⟩
    · rintro ⟨path, hpath⟩
      cases path with
      | nil => exact .inl (Option.some.inj hpath).symm
      | cons k path =>
        obtain ⟨c, hk, hpath⟩ := at?_cons.mp hpath
        have hc := List.mem_of_getElem? hk
        exact .inr ⟨c, hc, (ih c hc).mpr ⟨path, hpath⟩⟩

theorem self_mem_nodes (o : Outline α) : o ∈ o.nodes := mem_nodes.mpr ⟨[], rfl⟩

theorem nodes_subset_of_mem_children {o c : Outline α} (hc : c ∈ o.children) :
    c.nodes ⊆ o.nodes := by
  rw [nodes_eq o, listNodes_eq]
  exact fun n hn => List.mem_cons_of_mem _ (List.mem_flatMap.mpr ⟨c, hc, hn⟩)

theorem nodes_subset {o n : Outline α} (hn : n ∈ o.nodes) : n.nodes ⊆ o.nodes := by
  induction o using induction_on_children with
  | step o ih =>
    rw [nodes_eq, listNodes_eq, List.mem_cons, List.mem_flatMap] at hn
    rcases hn with rfl | ⟨c, hc, hn⟩
    · exact List.Subset.refl _
    · exact List.Subset.trans (ih c hc hn) (nodes_subset_of_mem_children hc)

section

variable (covers : α → Bool)

def Covered (o : Outline α) : Prop := o.info?.any covers = true

/-- What covers a child covers the parent, and at most one child is covered. -/
structure Nested (o : Outline α) : Prop where
  parent : ∀ c ∈ o.children, c.Covered covers → o.Covered covers
  apart : o.children.Pairwise fun c d => ¬(c.Covered covers ∧ d.Covered covers)

/-- The covered nodes that are of some sort are the one at the end of `path` and ancestors of it. -/
structure IsInnermost (o : Outline α) (path : List Nat) (n : Outline α) : Prop where
  at? : o.at? path = some n
  sort : n.form.sort?.isSome
  covered : n.Covered covers
  above : ∀ path' m, o.at? path' = some m → m.form.sort?.isSome → m.Covered covers → path' <+: path

end

variable {covers : α → Bool} {o : Outline α}

theorem Covered.of_at? (hnested : ∀ n ∈ o.nodes, n.Nested covers) {path : List Nat}
    {n : Outline α} (hn : o.at? path = some n) (hcovered : n.Covered covers) :
    o.Covered covers := by
  induction path generalizing o with
  | nil => exact Option.some.inj hn ▸ hcovered
  | cons k path ih =>
    obtain ⟨c, hk, hpath⟩ := at?_cons.mp hn
    have hc := List.mem_of_getElem? hk
    have hbelow := ih (fun m hm => hnested m (nodes_subset_of_mem_children hc hm)) hpath
    exact (hnested o o.self_mem_nodes).parent c hc hbelow

theorem Nested.eq_of_covered (h : o.Nested covers) {j k : Nat} {c d : Outline α}
    (hj : o.children[j]? = some c) (hk : o.children[k]? = some d) (hc : c.Covered covers)
    (hd : d.Covered covers) : j = k := by
  obtain ⟨hjlt, rfl⟩ := List.getElem?_eq_some_iff.mp hj
  obtain ⟨hklt, rfl⟩ := List.getElem?_eq_some_iff.mp hk
  have hapart := List.pairwise_iff_getElem.mp h.apart
  rcases Nat.lt_trichotomy j k with hlt | heq | hgt
  · exact absurd ⟨hc, hd⟩ (hapart j k hjlt hklt hlt)
  · exact heq
  · exact absurd ⟨hd, hc⟩ (hapart k j hklt hjlt hgt)

theorem listInnermost?_eq_none {os : List (Outline α)} :
    listInnermost? covers os = none ↔ ∀ o ∈ os, innermost? covers o = none := by
  induction os with
  | nil => exact iff_of_true rfl fun _ ho => absurd ho List.not_mem_nil
  | cons o os ih =>
    rw [listInnermost?, Option.or_eq_none_iff, ih, List.forall_mem_cons, and_comm]

theorem exists_innermost?_of_list {os : List (Outline α)} {answer : Form × α}
    (h : listInnermost? covers os = some answer) :
    ∃ (k : Nat) (o : Outline α), os[k]? = some o ∧ innermost? covers o = some answer := by
  induction os with
  | nil => cases h
  | cons o os ih =>
    rw [listInnermost?] at h
    rcases Option.or_eq_some_iff.mp h with hlater | ⟨-, hfirst⟩
    · obtain ⟨k, c, hk, hc⟩ := ih hlater
      exact ⟨k + 1, c, hk, hc⟩
    · exact ⟨0, o, rfl, hfirst⟩

theorem innermost?_of_sort {form : Form} {text? : Option Text} {info? : Option α}
    {children : List (Outline α)} {sort : NodeSort} (h : form.sort? = some sort) :
    innermost? covers (node form text? info? children) =
      if info?.any covers then
        (listInnermost? covers children).or (info?.map fun info => (form, info))
      else none := by
  cases info? <;> simp [innermost?, h]

theorem innermost?_of_no_sort {form : Form} {text? : Option Text} {info? : Option α}
    {children : List (Outline α)} (h : form.sort? = none) :
    innermost? covers (node form text? info? children) = listInnermost? covers children := by
  simp [innermost?, h]

def Finds (covers : α → Bool) (o : Outline α) : Option (Form × α) → Prop
  | none => ∀ path n, o.at? path = some n → n.form.sort?.isSome → ¬n.Covered covers
  | some (form, info) =>
    ∃ path n, o.IsInnermost covers path n ∧ n.form = form ∧ n.info? = some info

theorem finds_of_children (hnested : o.Nested covers)
    (hbelow : ∀ c ∈ o.children, ∀ n ∈ c.nodes, n.Nested covers)
    (ih : ∀ c ∈ o.children, c.Finds covers (innermost? covers c)) {answer : Form × α}
    (h : listInnermost? covers o.children = some answer) : o.Finds covers (some answer) := by
  obtain ⟨k, c, hk, hc⟩ := exists_innermost?_of_list h
  have hmem := List.mem_of_getElem? hk
  have hfound := ih c hmem
  rw [hc] at hfound
  obtain ⟨path, n, hinnermost, hform, hinfo⟩ := hfound
  have hcovered := Covered.of_at? (hbelow c hmem) hinnermost.at? hinnermost.covered
  refine ⟨k :: path, n, ⟨at?_cons.mpr ⟨c, hk, hinnermost.at?⟩, hinnermost.sort,
    hinnermost.covered, fun path' m hm hsort hm' => ?_⟩, hform, hinfo⟩
  cases path' with
  | nil => exact List.nil_prefix
  | cons j path' =>
    obtain ⟨d, hj, hd⟩ := at?_cons.mp hm
    have hcovered' := Covered.of_at? (hbelow d (List.mem_of_getElem? hj)) hd hm'
    -- Only one child is covered, so the other node lies below the same one.
    obtain rfl := hnested.eq_of_covered hk hj hcovered hcovered'
    obtain rfl : c = d := Option.some.inj (hk.symm.trans hj)
    exact (List.prefix_cons_inj _).mpr (hinnermost.above path' m hd hsort hm')

theorem not_covered_of_children (ih : ∀ c ∈ o.children, c.Finds covers (innermost? covers c))
    (h : listInnermost? covers o.children = none) {k : Nat} {path : List Nat} {n : Outline α}
    (hn : o.at? (k :: path) = some n) (hsort : n.form.sort?.isSome) : ¬n.Covered covers := by
  obtain ⟨c, hk, hpath⟩ := at?_cons.mp hn
  have hc := List.mem_of_getElem? hk
  have hfound := ih c hc
  rw [listInnermost?_eq_none.mp h c hc] at hfound
  exact hfound path n hpath hsort

theorem finds_innermost? (o : Outline α) (hnested : ∀ n ∈ o.nodes, n.Nested covers) :
    o.Finds covers (innermost? covers o) := by
  induction o using induction_on_children with
  | step o ih =>
    have hroot : o.Nested covers := hnested o o.self_mem_nodes
    have hbelow : ∀ c ∈ o.children, ∀ n ∈ c.nodes, n.Nested covers := fun c hc n hn =>
      hnested n (nodes_subset_of_mem_children hc hn)
    have ih : ∀ c ∈ o.children, c.Finds covers (innermost? covers c) := fun c hc =>
      ih c hc (hbelow c hc)
    have huncovered : ¬o.Covered covers → o.Finds covers none := fun hnot path n hn _ hcovered =>
      hnot (Covered.of_at? hnested hn hcovered)
    obtain ⟨form, text?, info?, children⟩ := o
    cases hlist : listInnermost? covers children with
    | some answer =>
      have hanswer := finds_of_children hroot hbelow ih hlist
      cases hsort : form.sort? with
      | none => rwa [innermost?_of_no_sort hsort, hlist]
      | some sort =>
        -- What is found below a node is covered, so the node is covered as well.
        obtain ⟨path, n, hinnermost, -⟩ := id hanswer
        have hcovered : info?.any covers = true :=
          Covered.of_at? hnested hinnermost.at? hinnermost.covered
        rwa [innermost?_of_sort hsort, if_pos hcovered, hlist]
    | none =>
      have hnone : ∀ k path n, (node form text? info? children).at? (k :: path) = some n →
          n.form.sort?.isSome → ¬n.Covered covers := fun k path n =>
        not_covered_of_children ih hlist
      cases hsort : form.sort? with
      | none =>
        rw [innermost?_of_no_sort hsort, hlist]
        intro path n hn hn'
        cases path with
        | nil =>
          obtain rfl := Option.some.inj hn
          rw [Outline.form, hsort] at hn'
          exact absurd hn' Bool.false_ne_true
        | cons k path => exact hnone k path n hn hn'
      | some sort =>
        rw [innermost?_of_sort hsort, hlist, Option.none_or]
        split
        next hcovered =>
          obtain ⟨info, rfl, -⟩ := (Option.any_eq_true _ _).mp hcovered
          have hself : (node form text? (some info) children).form.sort?.isSome := by
            rw [Outline.form, hsort]
            rfl
          refine ⟨[], _, ⟨rfl, hself, hcovered, fun path n hn hn' hcovered' => ?_⟩, rfl, rfl⟩
          cases path with
          | nil => exact List.nil_prefix
          | cons k path => exact absurd hcovered' (hnone k path n hn hn')
        next hcovered => exact huncovered hcovered

theorem exists_isInnermost (hnested : ∀ n ∈ o.nodes, n.Nested covers) {form : Form} {info : α}
    (h : innermost? covers o = some (form, info)) :
    ∃ path n, o.IsInnermost covers path n ∧ n.form = form ∧ n.info? = some info := by
  have hfound := finds_innermost? o hnested
  rwa [h] at hfound

/-- The search comes back with nothing just if nothing is covered. -/
theorem innermost?_eq_none_iff (hnested : ∀ n ∈ o.nodes, n.Nested covers) :
    innermost? covers o = none ↔ ∀ n ∈ o.nodes, n.form.sort?.isSome → ¬n.Covered covers := by
  have hfound := finds_innermost? o hnested
  constructor
  · intro hnone n hn
    obtain ⟨path, hpath⟩ := mem_nodes.mp hn
    rw [hnone] at hfound
    exact hfound path n hpath
  · intro hall
    cases hanswer : innermost? covers o with
    | none => rfl
    | some answer =>
      obtain ⟨path, n, hinnermost, -⟩ := exists_isInnermost hnested hanswer
      exact absurd hinnermost.covered
        (hall n (mem_nodes.mpr ⟨path, hinnermost.at?⟩) hinnermost.sort)

end Reparse.Outline
