import TypedSyntax.Document.Basic
import TypedSyntax.Grammar.Declaration

/-!
# Stored declarations

The stored forms of cardinalities, fields, constructors, sum types and productions. A cardinality
is its word, or a record with the word and `null`. Names are any texts: also those that grammar
text could not spell.
-/

namespace TypedSyntax

/-- The cardinality that a document describes. -/
def Cardinality.load? : Document → Option Cardinality
  | .text name => ofName? name
  | .record [(name, .null)] => ofName? name
  | _ => none

/-- The field that a document describes. -/
def Field.load? (d : Document) : Option Field :=
  match d.members? ["name", "type_name", "cardinality"] with
  | some [some (.text name), some (.text typeName), some cardinality] =>
    (Cardinality.load? cardinality).map (Field.mk name typeName)
  | _ => none

/-- The constructor that a document describes. -/
def Constructor.load? (d : Document) : Option Constructor :=
  match d.members? ["name", "fields"] with
  | some [some (.text name), some (.list fields)] =>
    (fields.mapM Field.load?).map (Constructor.mk name)
  | _ => none

/-- The sum type that a document describes. -/
def SumType.load? (d : Document) : Option SumType :=
  match d.members? ["name", "constructors"] with
  | some [some (.text name), some (.list constructors)] =>
    (constructors.mapM Constructor.load?).map (SumType.mk name)
  | _ => none

/-- The stored form of a field. -/
def Field.save (f : Field) : Document :=
  .record [("cardinality", .text f.cardinality.name), ("name", .text f.name),
    ("type_name", .text f.typeName)]

theorem Field.ordered_save (f : Field) : f.save.Ordered := by
  have hnames : ["cardinality", "name", "type_name"].Pairwise (· < ·) := by decide
  refine .record (List.pairwise_map.1 hnames) ?_
  simp only [List.forall_mem_cons]
  exact ⟨.text _, .text _, .text _, nofun⟩

/-- The stored form of a constructor. -/
def Constructor.save (c : Constructor) : Document :=
  .record [("fields", .list (c.fields.map Field.save)), ("name", .text c.name)]

theorem Constructor.ordered_save (c : Constructor) : c.save.Ordered :=
  .pair (by decide) (.list_map Field.ordered_save c.fields) (.text _)

/-- The stored form of a production. -/
def Production.save (p : Production) : Document :=
  .record [("constructor", p.constructor.save), ("type_name", .text p.typeName)]

/-- A production is stored with every record in order. -/
theorem Production.ordered_save (p : Production) : p.save.Ordered :=
  .pair (by decide) p.constructor.ordered_save (.text _)

end TypedSyntax
