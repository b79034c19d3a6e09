import SchemaDrift.Merge.Difference
import SchemaDrift.Source.Name

namespace SchemaDrift

/-!
# Outcomes of merges

A merge says which fields and indexes it added or commented out, which it left alone and why, and
what is left for review.
-/

namespace Merge

/-- A declaration that a merge is about. -/
inductive Part where
  | field (name : Text)
  | index (name : Text)
  deriving DecidableEq, Repr

def Part.label : Part → Text
  | field name => "field " ++ name
  | index name => "index " ++ name

/-- Why a declaration is left alone. -/
inductive Obstacle where
  /-- The declaration stands inside another one. -/
  | nested
  | noFieldsList
  | notListed
  | noEnd
  | sharedLine
  | notDeclared
  /-- A function has the name that an index needs. -/
  | nameTaken
  | notWritten
  /-- The database manages the index on its own. -/
  | detectionOnly
  deriving DecidableEq, Repr

def Obstacle.message : Obstacle → Text
  | nested => "nested and element fields need a manual edit"
  | noFieldsList => "no .fields(vec![..]) block found"
  | notListed => "declaration not found in .fields(vec![..])"
  | noEnd => "could not find the end of the declaration"
  | sharedLine => "declaration shares a line with other code"
  | notDeclared => "declaration not found"
  | nameTaken => "a function with the same name already exists"
  | notWritten => "index is not rendered"
  | detectionOnly => "search and vector indexes are managed in the database"

/-- A declaration that is left alone. -/
structure Skip where
  part : Part
  obstacle : Obstacle
  deriving DecidableEq, Repr

def Skip.message (s : Skip) : Text := s.part.label ++ ": " ++ s.obstacle.message

/-- What is left for review. -/
inductive Remark where
  /-- A change that is neither an addition nor a removal. -/
  | changed (c : Change)
  /-- An index whose function stands in no list of definitions. -/
  | unlisted (index : Text)
  | differs (d : Difference)
  deriving DecidableEq, Repr

def Remark.message : Remark → Text
  | changed c => c.description
  | unlisted index =>
    "index " ++ index ++ ": add " ++ Source.functionOf index ++ "() to " ++ Source.aggregate ++
      "() by hand"
  | differs d => d.message

/-- The text after a merge, and what happened to it. -/
structure Outcome where
  text : Text
  addedFields : List Text := []
  addedIndexes : List Text := []
  removedFields : List Text := []
  removedIndexes : List Text := []
  skipped : List Skip := []
  review : List Remark := []

namespace Outcome

def hasEdits (o : Outcome) : Bool :=
  !(o.addedFields.isEmpty && o.addedIndexes.isEmpty && o.removedFields.isEmpty &&
    o.removedIndexes.isEmpty)

def labelled (label : Text) (texts : List Text) : List Text := texts.map (label ++ ·)

/-- What happened, one line for each declaration. -/
def notes (o : Outcome) : List Text :=
  labelled "added field " o.addedFields ++ labelled "added index " o.addedIndexes ++
    labelled "commented out field " o.removedFields ++
    labelled "commented out index " o.removedIndexes ++
    labelled "skipped: " (o.skipped.map Skip.message) ++
    labelled "review: " (o.review.map Remark.message)

def skip (o : Outcome) (part : Part) (obstacle : Obstacle) : Outcome :=
  { o with skipped := o.skipped ++ [⟨part, obstacle⟩] }

def remark (o : Outcome) (r : Remark) : Outcome := { o with review := o.review ++ [r] }

end Outcome

end Merge

end SchemaDrift
