import SourceMacros.Settings.DateTime
import SourceMacros.Settings.Value

/-!
# Items of a document

An item is a value as a document writes it: dates are not looked at yet, a table
may name a key twice, and a table remembers whether dotted keys made it. An item
has a value if every date in it is one and no table names a key twice. A table
whose first key is `dateTimeKey` stands for the date that is written there, and
nothing else in it is looked at.
-/

namespace SourceMacros

namespace Toml

/-- A value as a document writes it. -/
inductive Item where
  | text (t : Text)
  | bool (b : Bool)
  | integer (i : Int)
  | float (x : Binary64)
  /-- What looks like a date or a time. -/
  | dateTime (written : Text)
  | array (items : List Item)
  /-- A table, made by dotted keys or not. -/
  | table (dotted : Bool) (fields : List (Text × Item))

/-- The fields of a table, in the order of the document. -/
abbrev Fields := List (Text × Item)

/-- Adds an item under a dotted key. Only tables that dotted keys made can be
extended. -/
def addField : List Text → Item → Fields → Option Fields
  | [], _, _ => none
  | [key], item, fs => some (fs ++ [(key, item)])
  | key :: keys, item, fs =>
    match fs.lookup key with
    | none =>
      (addField keys item []).map fun sub => fs ++ [(key, .table true sub)]
    | some (.table true sub) =>
      (addField keys item sub).map fun sub => setNamed key (.table true sub) fs
    | some _ => none

/-- The key of the only field of a date that is written as a table. -/
def dateTimeKey : Text := "$__toml_private_datetime".toList

/-- The date in a text, in its usual notation. -/
def dateValue? (written : Text) : Option Value :=
  (DateTime.ofText? written).map fun d => .text d.render

/-- The date that an item under `dateTimeKey` stands for. -/
def Item.asDate? : Item → Option Value
  | .text t => dateValue? t
  | _ => none

/-- Is no name given twice? -/
def distinct : List Text → Bool
  | [] => true
  | name :: names => !names.contains name && distinct names

/-- A table with the given fields, if no key is given twice. -/
def tableValue? (fs : List (Text × Value)) : Option Value :=
  if distinct (fs.map (·.1)) then some (.table fs) else none

mutual

/-- The value of an item. -/
def Item.toValue? : Item → Option Value
  | .text t => some (.text t)
  | .bool b => some (.bool b)
  | .integer i => some (.integer i)
  | .float x => some (.float x)
  | .dateTime written => dateValue? written
  | .array items => (itemValues? items).map .array
  | .table _ fs =>
    if (fs.head?.map (·.1)) = some dateTimeKey then
      fs.head?.bind (·.2.asDate?)
    else (fieldValues? fs).bind tableValue?

/-- The values of items. -/
def itemValues? : List Item → Option (List Value)
  | [] => some []
  | item :: items => do return (← item.toValue?) :: (← itemValues? items)

/-- The values of fields. -/
def fieldValues? : List (Text × Item) → Option (List (Text × Value))
  | [] => some []
  | (key, item) :: fs =>
    do return (key, ← item.toValue?) :: (← fieldValues? fs)

end

end Toml

end SourceMacros
