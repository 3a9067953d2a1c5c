import TreePass.Codec.Decode
import TreePass.Proofs.Attribute.Order
import TreePass.Proofs.Forest.Standing
import TreePass.Proofs.Sorted

/-!
# Reading undoes writing

What is written of the model is read again, as long as the reader may go down as many
levels as what is written is nested. Each part of the model is read from what is written
of it. Paths are not written: a node is read at its name, and so is everything in it
before it is placed where it belongs. So a forest comes back with every path in it, and
a node on its own with those that it has as a root.
-/

namespace TreePass

/-- Where each item is read from what is written of it, a list is. -/
theorem mapM_map_eq_some {α β γ : Type} {write : α → β} {read : β → Option γ} {back : α → γ}
    {items : List α} (hread : ∀ item ∈ items, read (write item) = some (back item)) :
    (items.map write).mapM read = some (items.map back) := by
  induction items with
  | nil => rfl
  | cons item rest ih =>
      obtain ⟨hitem, hrest⟩ := List.forall_mem_cons.mp hread
      rw [List.map_cons, List.mapM_cons, hitem, ih hrest]
      rfl

namespace Json

/-! ## Fields -/

theorem entries?_ofFields (fields : List (String × Json)) :
    (ofFields fields).entries? = some fields := by
  have hself : (ofFields fields).entries? = some (fields.map id) :=
    mapM_map_eq_some fun _ _ => rfl
  rw [hself, List.map_id]

/-- The fields of a record are read in the order in which they are written. -/
theorem record?_ofFields {names : List String} {fields : List (String × Json)}
    (hfields : Keyed.keys fields = names) (hnames : names.Nodup) :
    (ofFields fields).record? names = some (fields.map fun field => .given field.2) := by
  subst hfields
  have hentries := entries?_ofFields fields
  rw [ofFields] at hentries ⊢
  rw [record?, hentries, Option.bind_eq_bind, Option.bind_some, Keyed.keys]
  refine mapM_map_eq_some fun field hfield => ?_
  rw [fieldSlot, Keyed.filter_key_eq hnames hfield]

/-- A map is read whose values are. -/
theorem map?_ofFields {α β : Type} {write : α → Json} {read : Json → Option β} {back : α → β}
    {entries : List (String × α)} (hdistinct : Keyed.Distinct entries)
    (hread : ∀ entry ∈ entries, read (write entry.2) = some (back entry.2)) :
    (ofFields (entries.map fun entry => (entry.1, write entry.2))).map? read =
      some (entries.map fun entry => (entry.1, back entry.2)) := by
  have hkeys : Keyed.Distinct (entries.map fun entry => (entry.1, back entry.2)) :=
    Keyed.distinct_map_value _ hdistinct
  have hvalues : (entries.map fun entry => (entry.1, write entry.2)).mapM (fun entry => do
      return (entry.1, ← read entry.2)) = some (entries.map fun entry => (entry.1, back entry.2)) :=
    mapM_map_eq_some fun entry hentry => by
      rw [hread entry hentry]
      rfl
  rw [map?, entries?_ofFields, Option.bind_eq_bind, Option.bind_some, hvalues,
    Option.bind_eq_bind, Option.bind_some, Keyed.ofList_of_distinct hkeys]
  rfl

/-! ## Depths -/

@[simp] theorem depth_ofText (value : String) : (ofText value).depth = 0 := rfl

@[simp] theorem depth_ofOption (value : Option String) : (ofOption value).depth = 0 := by
  cases value <;> rfl

theorem depth_le_depthItems {item : Json} {items : List Json} (hitem : item ∈ items) :
    item.depth ≤ depthItems items := by
  induction items with
  | nil => cases hitem
  | cons first rest ih =>
      rw [depthItems]
      rcases List.mem_cons.mp hitem with rfl | hlater
      · exact Nat.le_max_left _ _
      · exact Nat.le_trans (ih hlater) (Nat.le_max_right _ _)

theorem depth_le_depthFields {field : String × Json} {fields : List (String × Json)}
    (hfield : field ∈ fields) :
    field.2.depth ≤ depthFields (fields.map fun field => (some field.1, field.2)) := by
  induction fields with
  | nil => cases hfield
  | cons first rest ih =>
      rw [List.map_cons, depthFields]
      rcases List.mem_cons.mp hfield with rfl | hlater
      · exact Nat.le_max_left _ _
      · exact Nat.le_trans (ih hlater) (Nat.le_max_right _ _)

/-- What is in an object is less deep. -/
theorem depth_lt_ofFields {field : String × Json} {fields : List (String × Json)}
    (hfield : field ∈ fields) : field.2.depth < (ofFields fields).depth := by
  rw [ofFields, depth]
  exact Nat.lt_succ_of_le (depth_le_depthFields hfield)

/-- What is written of a value in a map is less deep than what is written of the map. -/
theorem depth_lt_map {α : Type} (write : α → Json) {entry : String × α}
    {entries : List (String × α)} (hentry : entry ∈ entries) : (write entry.2).depth <
      (ofFields (entries.map fun entry => (entry.1, write entry.2))).depth := by
  have hfield : (entry.1, write entry.2) ∈ entries.map fun entry => (entry.1, write entry.2) :=
    List.mem_map_of_mem hentry
  exact depth_lt_ofFields hfield

theorem depth_ofFields_pos (fields : List (String × Json)) : 0 < (ofFields fields).depth := by
  rw [ofFields, depth]
  exact Nat.succ_pos _

/-- What is in an array is less deep. -/
theorem depth_lt_array {item : Json} {items : List Json} (hitem : item ∈ items) :
    item.depth < (array items).depth := by
  rw [depth]
  exact Nat.lt_succ_of_le (depth_le_depthItems hitem)

/-! ## Plain values -/

theorem int64?_toInt (value : Int64) : (integer value.toInt).int64? = some value := by
  rw [int64?, if_pos ⟨value.minValue_le_toInt, value.toInt_le⟩, Int64.ofInt_toInt]

theorem nullableText?_ofOption (value : Option String) :
    (ofOption value).nullableText? = some value := by
  cases value <;> rfl

end Json

/-! ## Attributes and members -/

theorem Attribute.toJsonFields_eq (fields : List (String × Attribute)) :
    toJsonFields fields = fields.map fun field => (field.1, field.2.toJson) := by
  induction fields with
  | nil => rfl
  | cons field rest ih => rw [toJsonFields, ih, List.map_cons]

/-- A record is read field by field. -/
theorem Attribute.ofJson_structured (levels : Nat) (kind : String)
    (fields : List (String × Attribute)) :
    ofJson (levels + 3) (Attribute.structured kind fields).toJson =
      (toJsonFields fields).mapM (fun field => do return (field.1, ← ofJson levels field.2)) >>=
        fun fields => some (record kind fields) := by
  have hrecord : (Json.ofFields [("kind", .ofText kind),
      ("fields", .ofFields (toJsonFields fields))]).record? ["kind", "fields"] =
      some [.given (.ofText kind), .given (.ofFields (toJsonFields fields))] :=
    Json.record?_ofFields rfl (by decide)
  change ofJson (levels + 3) (.object [(some "Structured", .ofFields [("kind", .ofText kind),
    ("fields", .ofFields (toJsonFields fields))])]) = _
  rw [ofJson, hrecord]
  change ((Json.ofFields (toJsonFields fields)).entries? >>= fun entries => _) = _
  rw [Json.entries?_ofFields]
  rfl

theorem Attribute.depth_structured (kind : String) (fields : List (String × Attribute)) :
    (Attribute.structured kind fields).toJson.depth =
      (Json.ofFields (fields.map fun field => (field.1, field.2.toJson))).depth + 2 := by
  simp [toJson, toJsonFields_eq, Json.ofFields, Json.depth, Json.depthFields]

theorem Attribute.ofJson_toJson {value : Attribute} (hvalue : value.Ascending) {levels : Nat}
    (hlevels : value.toJson.depth ≤ levels) : ofJson levels value.toJson = some value := by
  induction hvalue generalizing levels with
  | flag name =>
      obtain ⟨levels, rfl⟩ := Nat.exists_eq_add_of_le' hlevels
      rfl
  | text key value =>
      obtain ⟨levels, rfl⟩ := Nat.exists_eq_add_of_le' hlevels
      rfl
  | int key value =>
      obtain ⟨levels, rfl⟩ := Nat.exists_eq_add_of_le' hlevels
      have hread : ofJson (levels + 2) (Attribute.int key value).toJson =
          (Json.integer value.toInt).int64? >>= fun value => some (.int key value) := rfl
      exact hread.trans (by rw [Json.int64?_toInt]; rfl)
  | bool key value =>
      obtain ⟨levels, rfl⟩ := Nat.exists_eq_add_of_le' hlevels
      rfl
  | @structured kind fields names values ih =>
      rw [depth_structured] at hlevels
      have hpos := Json.depth_ofFields_pos (fields.map fun field => (field.1, field.2.toJson))
      obtain ⟨below, rfl⟩ : ∃ below, levels = below + 3 := ⟨levels - 3, by omega⟩
      have hread : (toJsonFields fields).mapM (fun field => do
          return (field.1, ← ofJson below field.2)) = some (fields.map id) := by
        rw [toJsonFields_eq]
        refine mapM_map_eq_some fun field hfield => ?_
        have hlt := Json.depth_lt_map Attribute.toJson hfield
        rw [ih field hfield (by omega)]
        rfl
      rw [ofJson_structured, hread, List.map_id, Option.bind_eq_bind, Option.bind_some, record,
        Keyed.sorted_of_pairwise names]

theorem AttributeSet.ofJson_toJson {set : AttributeSet} (hset : set.Ascending) {levels : Nat}
    (hlevels : set.toJson.depth ≤ levels) : ofJson levels set.toJson = some set := by
  obtain ⟨below, rfl⟩ : ∃ below, levels = below + 1 :=
    Nat.exists_eq_add_of_le' (Nat.le_trans (Nat.succ_le_succ (Nat.zero_le _)) hlevels)
  have hvalues : (set.values.map Attribute.toJson).mapM (Attribute.ofJson below) =
      some (set.values.map id) := by
    refine mapM_map_eq_some fun value hvalue => Attribute.ofJson_toJson (hset.2 value hvalue) ?_
    have hlt : value.toJson.depth < set.toJson.depth :=
      Json.depth_lt_array (List.mem_map_of_mem hvalue)
    omega
  rw [toJson, ofJson, hvalues, List.map_id, Option.map_some, hset.ofList_values]

theorem Member.depth_toJson (member : Member) :
    member.toJson.depth = member.attributes.toJson.depth + 1 := by
  simp [toJson, Json.ofFields, Json.depth, Json.depthFields]

theorem Member.record?_toJson (member : Member) :
    member.toJson.record? ["name", "documentation", "type_name", "attributes"] =
      some [.given (.ofText member.name), .given (.ofOption member.documentation),
        .given (.ofOption member.typeName), .given member.attributes.toJson] :=
  Json.record?_ofFields rfl (by decide)

theorem Member.ofJson_toJson {member : Member} (hmember : member.attributes.Ascending)
    {levels : Nat} (hlevels : member.toJson.depth ≤ levels) :
    ofJson levels member.toJson = some member := by
  rw [depth_toJson] at hlevels
  obtain ⟨below, rfl⟩ : ∃ below, levels = below + 1 := ⟨levels - 1, by omega⟩
  have hattributes := AttributeSet.ofJson_toJson hmember (Nat.le_of_succ_le_succ hlevels)
  rw [ofJson, record?_toJson]
  simp [Json.Slot.required, Json.Slot.orAbsent, Json.Slot.orDefault, Json.text?, Json.ofText,
    Json.nullableText?_ofOption, hattributes]

/-! ## Nodes and forests -/

namespace Node

/-- The attributes in the node, at every depth, are in ascending order. -/
def Ascending (node : Node) : Prop :=
  ∀ inner ∈ node.preorder, inner.attributes.Ascending ∧
    ∀ entry ∈ inner.members, entry.2.attributes.Ascending

instance (node : Node) : Decidable node.Ascending :=
  inferInstanceAs (Decidable (∀ inner ∈ node.preorder, _))

theorem Ascending.child {node : Node} (hnode : node.Ascending) {entry : String × Node}
    (hentry : entry ∈ node.children) : entry.2.Ascending :=
  fun inner hinner => hnode inner (mem_preorder_of_child hentry hinner)

theorem toJsonChildren_eq (children : List (String × Node)) :
    toJsonChildren children = children.map fun entry => (entry.1, entry.2.toJson) := by
  induction children with
  | nil => rfl
  | cons entry rest ih => rw [toJsonChildren, ih, List.map_cons]

theorem toJson_eq (node : Node) : node.toJson = .ofFields
    [("name", .ofText node.name), ("documentation", .ofOption node.documentation),
      ("children", .ofFields (node.children.map fun entry => (entry.1, entry.2.toJson))),
      ("members", .ofFields (node.members.map fun entry => (entry.1, entry.2.toJson))),
      ("attributes", node.attributes.toJson)] := by
  cases node
  rw [toJson, toJsonChildren_eq]

theorem record?_toJson (node : Node) :
    node.toJson.record? ["name", "documentation", "children", "members", "attributes"] =
      some [.given (.ofText node.name), .given (.ofOption node.documentation),
        .given (.ofFields (node.children.map fun entry => (entry.1, entry.2.toJson))),
        .given (.ofFields (node.members.map fun entry => (entry.1, entry.2.toJson))),
        .given node.attributes.toJson] := by
  rw [toJson_eq]
  exact Json.record?_ofFields rfl (by decide)

theorem depth_toJson (node : Node) : node.toJson.depth =
    max (Json.ofFields (node.children.map fun entry => (entry.1, entry.2.toJson))).depth
      (max (Json.ofFields (node.members.map fun entry => (entry.1, entry.2.toJson))).depth
        node.attributes.toJson.depth) + 1 := by
  rw [toJson_eq, Json.ofFields]
  simp [Json.depth, Json.depthFields]

/-- It does not matter where a node and its children stood before it was placed. -/
theorem reroot_asRoot_children (path recorded : Path) (node : Node) :
    reroot path { node with
      path := recorded
      children := node.children.map fun entry => (entry.1, entry.2.asRoot) } =
      node.reroot path := by
  cases node
  simp only [reroot, rerootChildren_eq, List.map_map]
  congr 1
  exact List.map_congr_left fun entry _ => congrArg _ (reroot_reroot _ _ _)

/-- A node is read as a root, wherever it stood when it was written. -/
theorem ofJson_toJson {node : Node} (hdistinct : node.Distinct) (hnode : node.Ascending)
    {levels : Nat} (hlevels : node.toJson.depth ≤ levels) :
    ofJson levels node.toJson = some node.asRoot := by
  induction node using Node.induction generalizing levels with
  | step node ih =>
      rw [depth_toJson, Nat.add_one_le_iff, Nat.max_lt, Nat.max_lt] at hlevels
      obtain ⟨hchildren, hmembers, hattributes⟩ := hlevels
      have hpos := Json.depth_ofFields_pos (node.members.map fun entry => (entry.1, entry.2.toJson))
      obtain ⟨below, rfl⟩ : ∃ below, levels = below + 2 := ⟨levels - 2, by omega⟩
      obtain ⟨hset, hmember⟩ := hnode node node.mem_preorder_self
      have hreadChildren : (Json.ofFields (node.children.map fun entry =>
          (entry.1, entry.2.toJson))).map? (ofJson below) =
          some (node.children.map fun entry => (entry.1, entry.2.asRoot)) := by
        refine Json.map?_ofFields hdistinct.children fun entry hentry => ?_
        have hlt := Json.depth_lt_map toJson hentry
        exact ih entry hentry (hdistinct.child hentry) (hnode.child hentry) (by omega)
      have hreadMembers : (Json.ofFields (node.members.map fun entry =>
          (entry.1, entry.2.toJson))).map? (Member.ofJson below) =
          some (node.members.map fun entry => (entry.1, id entry.2)) := by
        refine Json.map?_ofFields hdistinct.members fun entry hentry => ?_
        have hlt := Json.depth_lt_map Member.toJson hentry
        exact Member.ofJson_toJson (hmember entry hentry) (by omega)
      have hreadSet := AttributeSet.ofJson_toJson hset (Nat.le_of_lt_succ hattributes)
      have hread : ofJson (below + 2) node.toJson = some (asRoot { node with
          path := .single node.name
          children := node.children.map fun entry => (entry.1, entry.2.asRoot) }) := by
        rw [ofJson, record?_toJson]
        simp [Json.Slot.required, Json.Slot.orDefault, Json.text?, Json.ofText,
          Json.nullableText?_ofOption, hreadChildren, hreadMembers, hreadSet]
      exact hread.trans (congrArg some (reroot_asRoot_children _ _ node))

end Node

namespace Forest

/-- The attributes in the forest are in ascending order everywhere. -/
def Ascending (forest : Forest) : Prop :=
  ∀ root ∈ forest.roots, root.Ascending

instance (forest : Forest) : Decidable forest.Ascending :=
  inferInstanceAs (Decidable (∀ root ∈ forest.roots, _))

theorem ofJson_toJson {forest : Forest} (hforest : forest.Placed) (hdistinct : forest.Distinct)
    (hascending : forest.Ascending) {levels : Nat} (hlevels : forest.toJson.depth ≤ levels) :
    ofJson levels forest.toJson = some forest := by
  obtain ⟨below, rfl⟩ : ∃ below, levels = below + 1 :=
    Nat.exists_eq_add_of_le' (Nat.le_trans (Nat.succ_le_succ (Nat.zero_le _)) hlevels)
  have hroots : (forest.roots.map Node.toJson).mapM (Node.ofJson below) =
      some (forest.roots.map Node.asRoot) := by
    refine mapM_map_eq_some fun root hroot => ?_
    have hlt : root.toJson.depth < forest.toJson.depth :=
      Json.depth_lt_array (List.mem_map_of_mem hroot)
    exact Node.ofJson_toJson (hdistinct root hroot) (hascending root hroot) (by omega)
  have hplaced : forest.roots.map Node.asRoot = forest.roots := congrArg roots hforest
  rw [toJson, ofJson, hroots, hplaced, Option.map_some, hforest]

/-- What is written of a forest is read as the forest, with the paths of all nodes,
although they are not written. What is written of a node on its own, wherever it stood,
is read as that node standing at its name, with everything in it where its keys lead. -/
theorem read_back :
    (∀ forest : Forest, forest.Placed → forest.Distinct → forest.Ascending →
      ∀ levels, forest.toJson.depth ≤ levels →
        Forest.ofJson levels forest.toJson = some forest) ∧
    ∀ node : Node, node.Distinct → node.Ascending → ∀ levels, node.toJson.depth ≤ levels →
      Node.ofJson levels node.toJson = some node.asRoot ∧ node.asRoot.same node = true ∧
        ∀ keys inner, node.asRoot.Leads keys inner →
          inner.path = (Path.single node.name).extend keys := by
  refine ⟨fun forest hforest hdistinct hascending levels hlevels =>
    ofJson_toJson hforest hdistinct hascending hlevels, ?_⟩
  intro node hdistinct hascending levels hlevels
  refine ⟨Node.ofJson_toJson hdistinct hascending hlevels, ?_, fun keys inner hleads => ?_⟩
  · exact Node.same_of_alike (hdistinct.reroot _) hdistinct (Node.alike_reroot _ node)
  · exact (Node.standsAt_reroot _ node).path_of_leads hleads

/-- A child and a member stand under other keys than their names, and the recorded paths
lead elsewhere. -/
def carving : Node where
  name := "n"
  documentation := some "of old"
  attributes := ⟨[.flag "kept", .structured "origin" [("by", .flag "hand"), ("year", .int "y" 1)]]⟩
  members := [("second", { name := "b", typeName := some "T" }), ("first", .named "a")]
  children := [("key", { Node.named "name" with path := ⟨"else", ["where"]⟩ }), ("c", .named "c")]
  path := ⟨"stale", ["path"]⟩

theorem read_back_carving :
    Forest.ofJson 127 (Forest.ofRoots [.named "s", carving]).toJson =
        some (.ofRoots [.named "s", carving]) ∧
      Node.ofJson 127 carving.toJson = some carving.asRoot ∧
      carving.asRoot.path = .single "n" ∧
      carving.asRoot.children.map (fun entry => entry.2.path) =
        [⟨"n", ["key"]⟩, ⟨"n", ["c"]⟩] := by
  have hforest := read_back.1 (.ofRoots [.named "s", carving]) (placed_ofRoots _)
    (by decide) (by decide +kernel) 127 (by decide)
  obtain ⟨hnode, -, hpaths⟩ := read_back.2 carving (by decide) (by decide +kernel) 127
    (by decide)
  exact ⟨hforest, hnode, hpaths [] _ (.here _), rfl⟩

end Forest

end TreePass
