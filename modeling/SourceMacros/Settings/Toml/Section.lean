import SourceMacros.Settings.Toml.Item

/-!
# Sections of a document

A document is a list of sections: the fields behind a header, with the path in
the header's brackets. The fields in front of the first header are the section
of the empty path. Sections are put together table by table: those whose path
goes on with the same key make up the value of that key. It is an array if the
first of them has double brackets and ends at the key, and then every such
header starts one more item.

A table that stands for a date leaves the sections behind its first one alone.
They then count as sections of the next item of the same array, and without a
next item the key would be given twice.
-/

namespace SourceMacros

namespace Toml

/-- The fields behind one header. -/
structure Section where
  /-- The keys that lead from the table at hand to the section's table. -/
  path : List Text
  /-- Is the header in double brackets? -/
  isItem : Bool
  fields : Fields

namespace Section

/-- Does the section start one more item at this place? -/
def startsItem (s : Section) : Bool :=
  s.path.isEmpty && s.isItem

/-- The sections whose path goes on with a key, seen from there. -/
def below (key : Text) (ss : List Section) : List Section :=
  ss.filterMap fun s =>
    match s.path with
    | [] => none
    | k :: path => if k = key then some { s with path := path } else none

/-- The keys with which paths go on, each once. -/
def nextKeys (ss : List Section) : List Text :=
  (ss.filterMap (·.path.head?)).eraseDups

/-- The first key of the table that sections make up. -/
def firstKey? : List Section → Option Text
  | [] => none
  | s :: ss =>
    match s.path, s.fields with
    | key :: _, _ => some key
    | [], (key, _) :: _ => some key
    | [], [] => firstKey? ss

/-- The item that stands for the whole table because its key comes first. -/
def dateItem? : List Section → Option Item
  | ⟨[], false, (key, item) :: _⟩ :: _ =>
    if key = dateTimeKey then some item else none
  | _ => none

/-- The sections of each item of an array, its own one first. -/
def itemSections : List Section → List (Section × List Section)
  | [] => []
  | s :: ss =>
    if s.startsItem then
      ({ s with isItem := false }, ss.takeWhile (!·.startsItem))
        :: itemSections ss
    else itemSections ss

/-- The fields of the table itself. It may have one header of its own, in
single brackets. -/
def ownFields? (ss : List Section) : Option Fields :=
  match ss.filter (·.path.isEmpty) with
  | [] => some []
  | [s] => if s.isItem then none else some s.fields
  | _ => none

/-- The items of an array one after the other; each one leaves sections to the
next. -/
def arrayOf (table : List Section → Option (Value × List Section)) :
    List (Section × List Section) → List Section →
      Option (List Value × List Section)
  | [], left => some ([], left)
  | (own, ss) :: rest, left => do
    let (v, left) ← table (own :: (left ++ ss))
    let (vs, left) ← arrayOf table rest left
    return (v :: vs, left)

/-- The value at a place, from the sections seen from there, and the sections
left alone. -/
def valueOf (table : List Section → Option (Value × List Section))
    (ss : List Section) : Option (Value × List Section) :=
  if ss.head?.any startsItem then do
    let (vs, left) ← arrayOf table (itemSections ss) []
    return (.array vs, left)
  else table ss

/-- The table of sections with paths shorter than `fuel`, and the sections left
alone. -/
def tableOf :
    (fuel : Nat) → List Section → Option (Value × List Section)
  | 0, _ => none
  | fuel + 1, ss =>
    match dateItem? ss with
    | some item => item.asDate?.map fun v => (v, ss.tail)
    | none =>
      if firstKey? ss = some dateTimeKey then none
      else do
        let own ← fieldValues? (← ownFields? ss)
        let subs ← (nextKeys ss).mapM fun key => do
          let (v, left) ← valueOf (tableOf fuel) (below key ss)
          if left.isEmpty then some (key, v) else none
        let v ← tableValue? (own ++ subs)
        return (v, [])

/-- The fields of the table that a document makes up. -/
def rootFields? (ss : List Section) : Option (List (Text × Value)) :=
  match tableOf ((ss.map (·.path.length)).foldl max 0 + 1) ss with
  | some (.table fields, _) => some fields
  | _ => none

end Section

end Toml

end SourceMacros
