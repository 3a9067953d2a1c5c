import TreePass.Codec.Decode
import TreePass.Proofs.Forest.Standing
import TreePass.Proofs.Rewrite.WellPlaced

/-!
# Paths in a forest are accurate

However a forest is made, of whatever nodes, every node in it records the name of its
root and the keys that lead to it from there. The nodes that one starts from may have
been edited at will: their names, their keys and the paths recorded in them need not
go together. Every way to make a forest puts its nodes into their places anew or
takes them from a forest in which they are.
-/

namespace TreePass.Forest

/-- The forests that can be made. Nothing is asked of the nodes that roots are made
of, of a staging area that is built, or of the rules of a rewrite. -/
inductive Constructed : Forest → Prop where
  | ofRoots (roots : List Node) : Constructed (ofRoots roots)
  | empty : Constructed empty
  | withRoot {forest : Forest} (before : Constructed forest) (root : Node) :
      Constructed (forest.withRoot root)
  | withoutRoot {forest : Forest} (before : Constructed forest) (name : String) :
      Constructed (forest.withoutRoot name)
  | decoded {levels : Nat} {json : Json} {forest : Forest}
      (read : ofJson levels json = some forest) : Constructed forest
  | built {staging : Staging} {policy : MissingChild} {forest : Forest}
      (build : staging.build policy = .ok forest) : Constructed forest
  | rewritten {σ : Type} {rewriter : Rewriter} {steps : List (Step (Work σ))} {forest : Forest}
      {start stop : σ} {outcome : Outcome} (before : Constructed forest)
      (run : (rewriter.apply steps forest).run.run start = (.ok outcome, stop)) :
      Constructed outcome.forest

/-- Every node records the name of its root and the keys that lead to it. -/
def Accurate (forest : Forest) : Prop :=
  ∀ root ∈ forest.roots, ∀ keys node, root.Leads keys node → node.path = ⟨root.name, keys⟩

theorem Placed.accurate {forest : Forest} (hforest : forest.Placed) : forest.Accurate :=
  fun root hroot _ _ hleads => (placed_iff.mp hforest root hroot).path_of_leads hleads

theorem WellPlaced.standing {forest : Forest} (hforest : forest.WellPlaced) : forest.Placed :=
  placed_iff.mpr fun root hroot => (hforest.placed root hroot).standsAt

theorem placed_of_ofJson {levels : Nat} {json : Json} {forest : Forest}
    (hread : ofJson levels json = some forest) : forest.Placed := by
  rw [ofJson.eq_def] at hread
  split at hread
  next =>
    obtain ⟨roots, -, rfl⟩ := Option.map_eq_some_iff.mp hread
    exact placed_ofRoots roots
  next => cases hread

theorem placed_of_build {staging : Staging} {policy : MissingChild} {forest : Forest}
    (hbuild : staging.build policy = .ok forest) : forest.Placed := by
  obtain ⟨roots, -, hroots⟩ := bind_eq_ok.mp hbuild
  cases hroots
  exact placed_ofRoots roots

/-- Without steps a rewrite leaves the forest that it is given, and with steps it
builds one. -/
theorem Placed.rewritten {σ : Type} {forest : Forest} (hforest : forest.Placed)
    (rewriter : Rewriter) (steps : List (Step (Work σ))) :
    Ensures (rewriter.apply steps forest) fun outcome => outcome.forest.Placed := by
  by_cases hsteps : steps = []
  · subst hsteps
    exact .pure hforest
  · exact (Rewriter.apply_wellPlaced rewriter hsteps forest).mono
      fun _ houtcome => houtcome.standing

namespace Constructed

theorem placed {forest : Forest} (hforest : forest.Constructed) : forest.Placed := by
  induction hforest with
  | ofRoots roots => exact placed_ofRoots roots
  | empty => exact placed_ofRoots []
  | withRoot _ root ih => exact ih.withRoot root
  | withoutRoot _ name ih => exact ih.withoutRoot name
  | decoded hread => exact placed_of_ofJson hread
  | built hbuild => exact placed_of_build hbuild
  | rewritten _ hrun ih => exact ih.rewritten _ _ _ _ _ hrun

/-- In a forest that can be made, every node records where it is, and what is found
at a path records that path. -/
theorem paths_accurate {forest : Forest} (hforest : forest.Constructed) :
    forest.Accurate ∧ ∀ path node, forest.find? path = some node → node.path = path :=
  ⟨hforest.placed.accurate, fun _ _ hfound => hforest.placed.path_of_find? hfound⟩

end Constructed

/-- A root under a name that it was not made with, and below it a child under a key
that is not its name. Nobody has put these nodes into their places. -/
def stray : Node :=
  { Node.named "a" with
    name := "b"
    children := [("key", (Node.named "c").withChild (.named "d"))] }

/-- The stray root takes the place of another root, beside one that goes away. -/
def restored : Forest :=
  ((ofRoots [.named "z", .named "b"]).withRoot stray).withoutRoot "z"

theorem paths_accurate_restored :
    restored.Constructed ∧ stray.descend ["key", "d"] = some (Node.placed "d" ⟨"c", ["d"]⟩) ∧
      restored.find? ⟨"b", ["key", "d"]⟩ = some (Node.placed "d" ⟨"b", ["key", "d"]⟩) ∧
      (Node.placed "d" ⟨"b", ["key", "d"]⟩).path = ⟨"b", ["key", "d"]⟩ := by
  have hrestored : restored.Constructed :=
    ((Constructed.ofRoots [.named "z", .named "b"]).withRoot stray).withoutRoot "z"
  have hfound : restored.find? ⟨"b", ["key", "d"]⟩ =
      some (Node.placed "d" ⟨"b", ["key", "d"]⟩) := rfl
  exact ⟨hrestored, rfl, hfound, (Constructed.paths_accurate hrestored).2 _ _ hfound⟩

end TreePass.Forest
