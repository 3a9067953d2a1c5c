import TreePass.Adapter.Basic
import TreePass.Proofs.Node.Maps
import TreePass.Proofs.Text.Lined

/-!
# Outlines at a depth

An outline is written at a depth that is counted on the way down. Since every part of it is a
text of whole lines, one level deeper is one indent more before each of them, and the outline
of a node is made of the outlines of what is in it. A line feed could get between the lines
only by a word that stands in a line as it is; a documentation is taken apart into its lines,
and the value of a text is quoted.
-/

namespace TreePass

open Text

/-! ## Words -/

namespace Attribute

mutual

/-- What is shown of an attribute as it is: names, keys and kinds, at any depth. -/
def words : Attribute → List String
  | .flag name => [name]
  | .text key _ => [key]
  | .int key _ => [key]
  | .bool key _ => [key]
  | .structured kind fields => kind :: wordsFields fields

def wordsFields : List (String × Attribute) → List String
  | [] => []
  | (name, value) :: rest => name :: value.words ++ wordsFields rest

end

mutual

theorem unbroken_display (value : Attribute) (hwords : ∀ word ∈ value.words, Unbroken word) :
    Unbroken value.display := by
  have hequals : Unbroken " = " := by decide
  cases value with
  | flag name => simpa [words, display] using hwords
  | text key value =>
      have hkey : Unbroken key := by simpa [words] using hwords
      simp [display, hkey, hequals, unbroken_quoted]
  | int key value =>
      have hkey : Unbroken key := by simpa [words] using hwords
      simp [display, hkey, hequals, unbroken_repr]
  | bool key value =>
      have hkey : Unbroken key := by simpa [words] using hwords
      have hvalue : Unbroken (if value then "true" else "false") := by cases value <;> decide
      simp [display, hkey, hequals, hvalue]
  | structured kind fields =>
      obtain ⟨hkind, hfields⟩ := List.forall_mem_cons.mp hwords
      have hshown := unbroken_intercalate (by decide : Unbroken ", ")
        (unbroken_displayFields fields hfields)
      have hbrackets : Unbroken "(" ∧ Unbroken ")" := by decide
      simp [display, hkind, hshown, hbrackets]

theorem unbroken_displayFields (fields : List (String × Attribute))
    (hwords : ∀ word ∈ wordsFields fields, Unbroken word) :
    ∀ text ∈ displayFields fields, Unbroken text := by
  cases fields with
  | nil => simp [displayFields]
  | cons field rest =>
      obtain ⟨name, value⟩ := field
      simp only [wordsFields, List.cons_append, List.forall_mem_cons, List.forall_mem_append]
        at hwords
      obtain ⟨hname, hvalue, hrest⟩ := hwords
      have hcolon : Unbroken ": " := by decide
      simp only [displayFields, List.forall_mem_cons]
      exact ⟨by simp [hname, hcolon, unbroken_display value hvalue],
        unbroken_displayFields rest hrest⟩

end

end Attribute

def AttributeSet.words (set : AttributeSet) : List String :=
  set.values.flatMap Attribute.words

def Member.words (member : Member) : List String :=
  member.name :: (member.typeName.toList ++ member.attributes.words)

/-- What is shown as it is of a node and its members. -/
def Node.words (node : Node) : List String :=
  node.name :: (node.attributes.words ++ (Keyed.values node.members).flatMap Member.words)

/-- What is shown as it is of everything in a forest. -/
def Forest.words (forest : Forest) : List String :=
  forest.nodes.flatMap Node.words

namespace Outline

theorem unbroken_attributes {set : AttributeSet} (hwords : ∀ word ∈ set.words, Unbroken word) :
    Unbroken (attributes set) := by
  unfold attributes
  split
  · decide
  · have hvalues : ∀ text ∈ set.values.map Attribute.display, Unbroken text := by
      intro text htext
      obtain ⟨value, hvalue, rfl⟩ := List.mem_map.mp htext
      exact value.unbroken_display fun word hword =>
        hwords word (List.mem_flatMap_of_mem hvalue hword)
    have hshown := unbroken_intercalate (by decide : Unbroken ", ") hvalues
    have hbrackets : Unbroken " " ∧ Unbroken "[" ∧ Unbroken "]" := by decide
    simp [AttributeSet.display, hshown, hbrackets]

theorem unbroken_typeName {name : Option String} (hwords : ∀ word ∈ name.toList, Unbroken word) :
    Unbroken (typeName name) := by
  have hcolon : Unbroken ": " := by decide
  cases name with
  | none => decide
  | some name => simp_all [typeName]

/-! ## Parts of an outline -/

/-- What is written at a depth: so many whole lines at each, with one more indent before every
one of them at the next. -/
structure Part (write : Nat → String) (count : Nat) : Prop where
  spans : ∀ depth, Spans (write depth) count
  deeper : ∀ depth, write (depth + 1) = indented indent (write depth)

namespace Part

variable {write other : Nat → String} {count more : Nat}

theorem append (hwrite : Part write count) (hother : Part other more) :
    Part (fun depth => write depth ++ other depth) (count + more) where
  spans depth := (hwrite.spans depth).append (hother.spans depth)
  deeper depth := by
    rw [indented_append (hwrite.spans depth), ← hwrite.deeper, ← hother.deeper]

theorem join {α β : Type} {items : List α} {write : α → Nat → String} {rows : α → List β}
    (hitems : ∀ item ∈ items, Part (write item) (rows item).length) :
    Part (fun depth => String.join (items.map (write · depth))) (items.flatMap rows).length where
  spans depth := .join fun item hitem => (hitems item hitem).spans depth
  deeper depth := by
    rw [indented_join fun item hitem => (hitems item hitem).spans depth]
    congr 1
    exact List.map_congr_left fun item hitem => (hitems item hitem).deeper depth

/-- What is written one level further in is a part as well. -/
theorem inner (hwrite : Part write count) : Part (fun depth => write (depth + 1)) count where
  spans depth := hwrite.spans (depth + 1)
  deeper depth := hwrite.deeper (depth + 1)

end Part

theorem part_line {content : String} (hcontent : Unbroken content) :
    Part (fun depth => line depth content) 1 := by
  have hindent : Unbroken indent := by decide
  have hall (depth : Nat) : Unbroken (String.join (List.replicate depth indent) ++ content) := by
    simp +contextual [List.mem_replicate, hindent, hcontent]
  constructor
  · exact fun depth => .single (hall depth)
  · intro depth
    simpa [line, List.replicate_succ, String.append_assoc] using
      (indented_line (hall depth) indent "").symm

theorem part_documentation (text : Option String) :
    Part (fun depth => documentation depth text) (text.toList.flatMap Text.lines).length := by
  cases text with
  | none => exact ⟨fun _ => .none, fun _ => rfl⟩
  | some text =>
      have hlines : ∀ content ∈ Text.lines text,
          Part (fun depth => line depth ("/// " ++ content)) [content].length := by
        intro content hcontent
        apply part_line
        exact unbroken_append_iff.mpr ⟨by decide, unbroken_of_mem_lines hcontent⟩
      simpa [documentation] using Part.join hlines

end Outline

namespace Member

def documentationLines (member : Member) : List String :=
  member.documentation.toList.flatMap Text.lines

/-- What has a line of its own. -/
def rows (member : Member) : List String := member.documentationLines ++ [member.name]

theorem part_outlineAt {member : Member} (hwords : ∀ word ∈ member.words, Unbroken word) :
    Outline.Part member.outlineAt member.rows.length := by
  simp only [words, List.forall_mem_cons, List.forall_mem_append] at hwords
  obtain ⟨hname, htype, hattributes⟩ := hwords
  have hheader : Unbroken ("member " ++ member.name ++ Outline.typeName member.typeName ++
      Outline.attributes member.attributes) := by
    simp only [unbroken_append_iff]
    exact ⟨⟨⟨by decide, hname⟩, Outline.unbroken_typeName htype⟩,
      Outline.unbroken_attributes hattributes⟩
  rw [rows, List.length_append]
  exact (Outline.part_documentation member.documentation).append (Outline.part_line hheader)

theorem length_rows (members : List Member) : (members.flatMap rows).length =
    members.length + (members.flatMap documentationLines).length := by
  induction members with
  | nil => rfl
  | cons member rest ih =>
      simp only [List.flatMap_cons, List.length_append, rows, List.length_cons, List.length_nil, ih]
      omega

end Member

namespace Node

variable {node : Node}

/-- The lines of the documentations of a node and its members. -/
def documentationLines (node : Node) : List String :=
  node.documentation.toList.flatMap Text.lines ++
    (Keyed.values node.members).flatMap Member.documentationLines

/-- What has a line of its own in a node or a member of it. -/
def rows (node : Node) : List String :=
  node.documentation.toList.flatMap Text.lines ++ [node.name] ++
    (Keyed.values node.members).flatMap Member.rows

theorem length_rows (nodes : List Node) : (nodes.flatMap rows).length = nodes.length +
    (nodes.flatMap members).length + (nodes.flatMap documentationLines).length := by
  induction nodes with
  | nil => rfl
  | cons node rest ih =>
      have hmembers : (Keyed.values node.members).length = node.members.length := List.length_map _
      simp only [List.flatMap_cons, List.length_append, rows, Member.length_rows, hmembers,
        documentationLines, List.length_cons, List.length_nil, ih]
      omega

theorem outlineChildren_eq (depth : Nat) (children : List (String × Node)) :
    outlineChildren depth children =
      String.join ((Keyed.values children).map (Node.outlineAt depth)) := by
  induction children with
  | nil => simp [outlineChildren]
  | cons entry rest ih => simp [outlineChildren, ih]

theorem outlineAt_eq (depth : Nat) (node : Node) : node.outlineAt depth =
    Outline.documentation depth node.documentation ++
      Outline.line depth ("node " ++ node.name ++ Outline.attributes node.attributes) ++
      String.join ((Keyed.values node.members).map (Member.outlineAt (depth + 1))) ++
      String.join ((Keyed.values node.children).map (Node.outlineAt (depth + 1))) := by
  cases node
  rw [outlineAt, outlineChildren_eq]
  simp [Keyed.values, Function.comp_def]

theorem part_member (hwords : ∀ word ∈ node.words, Unbroken word) :
    ∀ member ∈ Keyed.values node.members,
      Outline.Part member.outlineAt member.rows.length := by
  intro member hmember
  simp only [words, List.forall_mem_cons, List.forall_mem_append] at hwords
  exact member.part_outlineAt fun word hword =>
    hwords.2.2 word (List.mem_flatMap_of_mem hmember hword)

theorem unbroken_child (hwords : ∀ inner ∈ node.preorder, ∀ word ∈ inner.words, Unbroken word)
    {child : Node} (hchild : child ∈ Keyed.values node.children) :
    ∀ inner ∈ child.preorder, ∀ word ∈ inner.words, Unbroken word := by
  obtain ⟨entry, hentry, rfl⟩ := List.mem_map.mp hchild
  exact fun inner hinner => hwords inner (mem_preorder_of_child hentry hinner)

theorem part_outlineAt
    (hwords : ∀ inner ∈ node.preorder, ∀ word ∈ inner.words, Unbroken word) :
    Outline.Part node.outlineAt (node.preorder.flatMap rows).length := by
  induction node using Node.induction with
  | step node ih =>
      have hown := hwords node node.mem_preorder_self
      have hheader : Unbroken ("node " ++ node.name ++ Outline.attributes node.attributes) := by
        simp only [words, List.forall_mem_cons, List.forall_mem_append] at hown
        obtain ⟨hname, hattributes, -⟩ := hown
        simp only [unbroken_append_iff]
        exact ⟨⟨by decide, hname⟩, Outline.unbroken_attributes hattributes⟩
      have hchildren : ∀ child ∈ Keyed.values node.children,
          Outline.Part child.outlineAt (child.preorder.flatMap rows).length := by
        intro child hchild
        obtain ⟨entry, hentry, rfl⟩ := List.mem_map.mp hchild
        exact ih entry hentry (unbroken_child hwords hchild)
      have hwrite := funext fun depth => outlineAt_eq depth node
      rw [hwrite, preorder_eq, List.flatMap_cons, List.flatMap_assoc, rows]
      simp only [List.length_append]
      -- Members and children are written one level further in, at every depth of the node.
      exact (((Outline.part_documentation node.documentation).append
        (Outline.part_line hheader)).append (Outline.Part.join (part_member hown)).inner).append
          (Outline.Part.join hchildren).inner

end Node

namespace Forest

variable {forest : Forest}

theorem unbroken_node (hwords : ∀ word ∈ forest.words, Unbroken word) {node : Node}
    (hnode : node ∈ forest.nodes) :
    ∀ inner ∈ node.preorder, ∀ word ∈ inner.words, Unbroken word := by
  intro inner hinner word hword
  obtain ⟨root, hroot, hnode⟩ := List.mem_flatMap.mp hnode
  have hinner : inner ∈ forest.nodes :=
    List.mem_flatMap_of_mem hroot (Node.mem_preorder_trans hnode hinner)
  exact hwords word (List.mem_flatMap_of_mem hinner hword)

/-- What the outline has for the first root of a name. -/
def HasSection (forest : Forest) (name text : String) : Prop :=
  ∃ before root after, forest.roots = before ++ root :: after ∧ root.name = name ∧
    (∀ other ∈ before, other.name ≠ name) ∧ text = root.outline ∧
    forest.outline = (Forest.mk before).outline ++ text ++ (Forest.mk after).outline

theorem hasSection_iff {name text : String} :
    forest.HasSection name text ↔ ∃ root, forest.root? name = some root ∧ text = root.outline := by
  simp only [root?, List.find?_eq_some_iff_append]
  constructor
  · rintro ⟨before, root, after, hroots, hname, hbefore, htext, -⟩
    exact ⟨root, ⟨by simpa using hname, before, after, hroots, by simpa using hbefore⟩, htext⟩
  · rintro ⟨root, ⟨hname, before, after, hroots, hbefore⟩, rfl⟩
    refine ⟨before, root, after, hroots, by simpa using hname, by simpa using hbefore, rfl, ?_⟩
    simp [outline, hroots, String.join_append, String.append_assoc]

/-- The outline of a forest is made of those of its roots, one after the other. After its own
documentation and header, that of a node has the outlines of its members and then those of its
children, in the order of the maps and with an indent before every line. Every line is ended,
and there is one for every node, every member and every line of a documentation. The renderer
shows the section of the first root of a name, and fails if there is none. -/
theorem outline_compositional (hwords : ∀ word ∈ forest.words, Unbroken word) :
    forest.outline = String.join (forest.roots.map Node.outline) ∧
      (∀ node ∈ forest.nodes, node.outline =
        Outline.documentation 0 node.documentation ++
          Outline.line 0 ("node " ++ node.name ++ Outline.attributes node.attributes) ++
          String.join ((Keyed.values node.members).map fun member =>
            indented "  " member.outline) ++
          String.join ((Keyed.values node.children).map fun child =>
            indented "  " child.outline)) ∧
      Spans forest.outline (Text.lines forest.outline).length ∧
      (Text.lines forest.outline).length = forest.nodeCount +
        (forest.nodes.flatMap Node.members).length +
        (forest.nodes.flatMap Node.documentationLines).length ∧
      ∀ directory arguments,
        (Keyed.get? "root" arguments = none →
          Renderer.outline.render forest directory arguments = .ok forest.outline) ∧
        ∀ name, Keyed.get? "root" arguments = some name →
          (∀ text, Renderer.outline.render forest directory arguments = .ok text ↔
            forest.HasSection name text) ∧
          ((∃ fault, Renderer.outline.render forest directory arguments = .error fault) ↔
            ∀ root ∈ forest.roots, root.name ≠ name) := by
  have hspans : Spans forest.outline (forest.nodeCount +
      (forest.nodes.flatMap Node.members).length +
      (forest.nodes.flatMap Node.documentationLines).length) := by
    rw [nodeCount, ← Node.length_rows, nodes, List.flatMap_assoc]
    refine .join fun root hroot => (Node.part_outlineAt ?_).spans 0
    exact unbroken_node hwords (List.mem_flatMap_of_mem hroot root.mem_preorder_self)
  refine ⟨rfl, fun node hnode => ?parts, ?spans, hspans.length_lines, fun directory arguments =>
    ⟨fun habsent => ?whole, fun name hname => ⟨fun text => ?named, ?missing⟩⟩⟩
  case parts =>
    have hinner := unbroken_node hwords hnode
    have hmembers : ∀ member ∈ Keyed.values node.members,
        member.outlineAt 1 = indented "  " member.outline := fun member hmember =>
      (Node.part_member (hinner node node.mem_preorder_self) member hmember).deeper 0
    have hchildren : ∀ child ∈ Keyed.values node.children,
        child.outlineAt 1 = indented "  " child.outline := fun child hchild =>
      (Node.part_outlineAt (Node.unbroken_child hinner hchild)).deeper 0
    rw [Node.outline, Node.outlineAt_eq, List.map_congr_left hmembers,
      List.map_congr_left hchildren]
  case spans => rwa [hspans.length_lines]
  case whole => simp only [Renderer.outline, habsent]
  case named =>
    rw [hasSection_iff]
    simp only [Renderer.outline, hname]
    cases forest.root? name <;> simp [eq_comm]
  case missing =>
    have hnone : forest.root? name = none ↔ ∀ root ∈ forest.roots, root.name ≠ name := by
      simp [root?]
    simp only [← hnone, Renderer.outline, hname]
    cases forest.root? name <;> simp

/-- Three roots, two of one name. The first of all has a documentation with an empty line, a
value over two lines and a record in a record. -/
def shop : Forest where
  roots := [
    { Node.named "Customer" with
      documentation := some "Who orders.\r\n\nKnown by name."
      attributes := .ofList [.flag "public", .text "note" "first\nsecond",
        .record "limit" [("per", .record "span" [("days", .int "count" 30)])]]
      members := [("name", { Member.named "name" with
        documentation := some "", typeName := some "string" })]
      children := [("address", { Node.named "Address" with
        documentation := some "Where to."
        members := [("street", Member.named "street"), ("city", Member.named "city")] })] },
    { Node.named "Order" with documentation := some "An order." },
    Node.named "Order"]

example : shop.outline = "/// Who orders.
///\x20
/// Known by name.
node Customer [public, note = \"first\\nsecond\", limit(per: span(days: count = 30))]
  member name: string
  /// Where to.
  node Address
    member street
    member city
/// An order.
node Order
node Order
" := by decide +kernel

theorem outline_compositional_shop :
    (∀ word ∈ shop.words, Unbroken word) ∧ Spans shop.outline 12 ∧
      shop.HasSection "Order" "/// An order.\nnode Order\n" ∧
      ∃ fault, Renderer.outline.render shop "" [("root", "Stock")] = .error fault := by
  have hwords : ∀ word ∈ shop.words, Unbroken word := by decide +kernel
  obtain ⟨-, -, hspans, hlines, hrender⟩ := outline_compositional hwords
  rw [hlines] at hspans
  refine ⟨hwords, ?lines, ?order, ?stock⟩
  case lines =>
    have hcount : shop.nodeCount + (shop.nodes.flatMap Node.members).length +
        (shop.nodes.flatMap Node.documentationLines).length = 12 := by decide +kernel
    rwa [hcount] at hspans
  case order => exact (((hrender "" [("root", "Order")]).2 "Order" rfl).1 _).mp rfl
  case stock =>
    exact ((hrender "" [("root", "Stock")]).2 "Stock" rfl).2.mpr (by decide +kernel)

end Forest

end TreePass
