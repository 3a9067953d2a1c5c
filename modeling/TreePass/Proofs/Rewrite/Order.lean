import TreePass.Proofs.Rewrite.Walk

/-!
# Walking siblings in another order

A visit minds the names of the siblings before it only in that it refuses to give one
of them again. Siblings that are walked in another order therefore all come through if
they did before: what is left of them is the same in another order, and the same is
counted.
-/

namespace TreePass

theorem Tally.merge_left_comm (a b c : Tally) :
    a.merge (b.merge c) = b.merge (a.merge c) := by
  simp [Tally.merge, Nat.add_left_comm]

namespace Walk

variable {visit visit' : List String → Node → Except Fault (Option Node × Tally)}

/-- Taken names do nothing but rule out that a kept node has one of them. -/
def MindsNames (visit : List String → Node → Except Fault (Option Node × Tally)) : Prop :=
  ∀ taken node left tally, visit taken node = .ok (left, tally) ↔
    visit [] node = .ok (left, tally) ∧ ∀ kept ∈ left, kept.name ∉ taken

theorem visit_mindsNames (steps : List PureStep) (tree : Forest) (levels : Nat)
    (parent : Option Path) : MindsNames (Walk.visit steps tree levels parent) := by
  intro taken node left tally
  cases levels with
  | zero => simp [Walk.visit]
  | succ levels =>
      rw [Walk.visit, Walk.visit]
      cases Rule.onNodeAll tree node (rulesFor steps tree (.node node)) with
      | error fault => simp
      | ok answer =>
          cases answer with
          | none =>
              simp only [ok_bind, iff_self_and]
              rintro heq kept hkept
              cases heq
              cases hkept
          | some kept =>
              simp only [ok_bind, List.not_mem_nil, if_false]
              generalize hwalked : (Walk.fates steps tree node kept (Keyed.values kept.members) >>=
                fun fates => _) = walked
              -- What is left of the node has the name of the kept node.
              have hname (hleft : walked = .ok (left, tally)) :
                  (∀ other ∈ left, other.name ∉ taken) ↔ kept.name ∉ taken := by
                rw [← hwalked] at hleft
                obtain ⟨fates, -, hleft⟩ := bind_eq_ok.mp hleft
                obtain ⟨⟨children, below⟩, -, hleft⟩ := bind_eq_ok.mp hleft
                cases hleft
                simp [assemble]
              by_cases htaken : kept.name ∈ taken
              · rw [if_pos htaken]
                constructor
                · intro hleft
                  cases hleft
                · intro hleft
                  exact absurd htaken ((hname hleft.1).mp hleft.2)
              · rw [if_neg htaken]
                exact ⟨fun hleft => ⟨hleft, (hname hleft).mpr htaken⟩, And.left⟩

theorem siblings_cons_eq_ok {taken : List String} {node : Node} {rest kept : List Node}
    {tally : Tally} : siblings visit taken (node :: rest) = .ok (kept, tally) ↔
      ∃ left first others more, visit taken node = .ok (left, first) ∧
        siblings visit (left.toList.map Node.name ++ taken) rest = .ok (others, more) ∧
        kept = left.toList ++ others ∧ tally = first.merge more := by
  rw [siblings]
  constructor
  · intro hsiblings
    obtain ⟨⟨left, first⟩, hleft, hsiblings⟩ := bind_eq_ok.mp hsiblings
    obtain ⟨⟨others, more⟩, hothers, hsiblings⟩ := bind_eq_ok.mp hsiblings
    cases hsiblings
    exact ⟨left, first, others, more, hleft, hothers, rfl, rfl⟩
  · rintro ⟨left, first, others, more, hleft, hothers, rfl, rfl⟩
    simp only [hleft, ok_bind, hothers]
    rfl

/-- Siblings that come through do so wherever the names that they keep are free. -/
theorem siblings_of_taken (hvisit : MindsNames visit) {taken taken' : List String}
    {nodes kept : List Node} {tally : Tally}
    (hfree : ∀ node ∈ kept, node.name ∈ taken' → node.name ∈ taken)
    (hsiblings : siblings visit taken nodes = .ok (kept, tally)) :
    siblings visit taken' nodes = .ok (kept, tally) := by
  induction nodes generalizing taken taken' kept tally with
  | nil => exact hsiblings
  | cons node rest ih =>
      obtain ⟨left, first, others, more, hleft, hothers, rfl, rfl⟩ :=
        siblings_cons_eq_ok.mp hsiblings
      refine siblings_cons_eq_ok.mpr ⟨left, first, others, more, ?_, ?_, rfl, rfl⟩
      · obtain ⟨hempty, hnames⟩ := (hvisit taken node left first).mp hleft
        refine (hvisit taken' node left first).mpr ⟨hempty, fun kept hkept htaken => ?_⟩
        exact hnames kept hkept
          (hfree kept (List.mem_append_left _ (Option.mem_toList.mpr hkept)) htaken)
      · refine ih (fun other hother hmem => ?_) hothers
        rw [List.mem_append] at hmem ⊢
        exact hmem.imp_right (hfree other (List.mem_append_right _ hother))

/-- Siblings come through in every order if they do in one. -/
theorem siblings_perm (hvisit : MindsNames visit) {nodes nodes' : List Node}
    (hperm : nodes.Perm nodes') {taken : List String} {kept : List Node} {tally : Tally}
    (hsiblings : siblings visit taken nodes = .ok (kept, tally)) :
    ∃ kept', siblings visit taken nodes' = .ok (kept', tally) ∧ kept.Perm kept' := by
  induction hperm generalizing taken kept tally with
  | nil => exact ⟨kept, hsiblings, .refl kept⟩
  | cons node _ ih =>
      obtain ⟨left, first, others, more, hleft, hothers, rfl, rfl⟩ :=
        siblings_cons_eq_ok.mp hsiblings
      obtain ⟨others', hothers', hkept⟩ := ih hothers
      exact ⟨_, siblings_cons_eq_ok.mpr ⟨left, first, others', more, hleft, hothers', rfl, rfl⟩,
        hkept.append_left _⟩
  | swap second first rest =>
      obtain ⟨left, tally, later, counted, hleft, hlater, rfl, rfl⟩ :=
        siblings_cons_eq_ok.mp hsiblings
      obtain ⟨left', tally', others, more, hleft', hothers, rfl, rfl⟩ :=
        siblings_cons_eq_ok.mp hlater
      obtain ⟨hfree, hnames⟩ := (hvisit _ _ _ _).mp hleft
      obtain ⟨hfree', hnames'⟩ := (hvisit _ _ _ _).mp hleft'
      refine ⟨left'.toList ++ (left.toList ++ others), ?_, ?_⟩
      · refine siblings_cons_eq_ok.mpr ⟨left', tally', left.toList ++ others, tally.merge more,
          (hvisit _ _ _ _).mpr ⟨hfree', fun kept hkept hmem =>
            hnames' kept hkept (List.mem_append_right _ hmem)⟩, ?_, rfl,
          Tally.merge_left_comm _ _ _⟩
        refine siblings_cons_eq_ok.mpr ⟨left, tally, others, more,
          (hvisit _ _ _ _).mpr ⟨hfree, fun kept hkept hmem => ?_⟩, ?_, rfl, rfl⟩
        · rcases List.mem_append.mp hmem with hlater | htaken
          · obtain ⟨other, hother, heq⟩ := List.mem_map.mp hlater
            refine hnames' other (Option.mem_toList.mp hother) (List.mem_append_left _ ?_)
            rw [heq]
            exact List.mem_map_of_mem (Option.mem_toList.mpr hkept)
          · exact hnames kept hkept htaken
        · refine siblings_of_taken hvisit (fun other _ => ?_) hothers
          simp only [List.mem_append]
          exact or_left_comm.mp
      · rw [← List.append_assoc, ← List.append_assoc]
        exact List.perm_append_comm.append_right others
  | trans _ _ ih ih' =>
      obtain ⟨middle, hmiddle, hkept⟩ := ih hsiblings
      obtain ⟨last, hlast, hkept'⟩ := ih' hmiddle
      exact ⟨last, hlast, hkept.trans hkept'⟩

end Walk

end TreePass
