namespace FlowMerge

/-- Attributes in the order they were first set. No name occurs twice. -/
structure Attributes where
  entries : List (String × String)
  distinct : (entries.map Prod.fst).Nodup

namespace Attributes

def empty : Attributes := ⟨[], by simp⟩

instance : Inhabited Attributes := ⟨empty⟩

def get? (a : Attributes) (name : String) : Option String :=
  (a.entries.find? fun e ↦ e.1 == name).map Prod.snd

def contains (a : Attributes) (name : String) : Bool := (a.get? name).isSome

def names (a : Attributes) : List String := a.entries.map Prod.fst

def put (name value : String) (e : String × String) : String × String :=
  if e.1 = name then (name, value) else e

theorem map_fst_put (name value : String) (es : List (String × String)) :
    (es.map (put name value)).map Prod.fst = es.map Prod.fst := by
  induction es with
  | nil => rfl
  | cons e es ih =>
    simp only [List.map_cons, ih, put]
    split <;> simp_all

def insert (a : Attributes) (name value : String) : Attributes :=
  if h : name ∈ a.entries.map Prod.fst then
    ⟨a.entries.map (put name value), by rw [map_fst_put]; exact a.distinct⟩
  else
    ⟨a.entries ++ [(name, value)], by
      rw [List.map_append, List.nodup_append]
      exact ⟨a.distinct, by simp, fun x hx y hy e ↦ h (by simp_all)⟩⟩

def erase (a : Attributes) (name : String) : Attributes :=
  ⟨a.entries.filter fun e ↦ e.1 != name,
    (List.filter_sublist.map Prod.fst).nodup a.distinct⟩

def ofList (es : List (String × String)) : Attributes :=
  es.foldl (fun a e ↦ a.insert e.1 e.2) empty

def same (a b : Attributes) : Bool :=
  a.entries.length == b.entries.length && a.entries.all fun e ↦ b.get? e.1 == some e.2

instance : BEq Attributes := ⟨same⟩

def entryLe (x y : String × String) : Bool := x.1 < y.1 || (x.1 == y.1 && x.2 ≤ y.2)

def sorted (a : Attributes) : List (String × String) := a.entries.mergeSort entryLe

end Attributes

structure Content where
  label : String
  attributes : Attributes := .empty
  text : Option String := none
deriving Inhabited, BEq

/-- The labels of the nodes that steer a process. All other nodes are properties of these. -/
def controlFlowLabels : List String :=
  ["call", "manipulate", "parallel", "parallel_branch", "choose", "alternative", "otherwise",
    "loop", "critical", "stop", "escape", "terminate", "root", "description"]

def isControlFlowLabel (label : String) : Bool := controlFlowLabels.contains label

/-- A change of one field. An absent value means an absent field. -/
structure Update where
  old : Option String
  new : Option String
deriving DecidableEq, Inhabited

abbrev Updates := List (String × Update)

namespace Updates

def get? (u : Updates) (key : String) : Option Update :=
  (u.find? fun e ↦ e.1 == key).map Prod.snd

def insert (key : String) (value : Update) : Updates → Updates
  | [] => [(key, value)]
  | e :: rest =>
    if key < e.1 then (key, value) :: e :: rest
    else if key = e.1 then (key, value) :: rest
    else e :: insert key value rest

def erase (u : Updates) (key : String) : Updates := u.filter fun e ↦ e.1 != key

def ofList (es : List (String × Update)) : Updates :=
  es.foldl (fun u e ↦ insert e.1 e.2 u) []

end Updates

namespace Content

def textKey : String := "text"

def labelKey : String := "#label"

def attr? (c : Content) (name : String) : Option String := c.attributes.get? name

def isControlFlow (c : Content) : Bool := isControlFlowLabel c.label

def field (c : Content) (key : String) : Option String :=
  if key = textKey then c.text
  else if key = labelKey then some c.label
  else c.attr? key

/-- Sets a field, or removes it when there is no value. The label is never removed. -/
def setField (c : Content) (key : String) (value : Option String) : Content :=
  if key = textKey then { c with text := value }
  else if key = labelKey then
    match value with
    | some label => { c with label }
    | none => c
  else
    match value with
    | some v => { c with attributes := c.attributes.insert key v }
    | none => { c with attributes := c.attributes.erase key }

def lostFields (old new : Content) : Updates :=
  old.attributes.entries.filterMap fun e ↦
    if new.attr? e.1 = some e.2 then none else some (e.1, ⟨some e.2, new.attr? e.1⟩)

def gainedFields (old new : Content) : Updates :=
  new.attributes.entries.filterMap fun e ↦
    if old.attributes.contains e.1 then none else some (e.1, ⟨none, some e.2⟩)

def diffFields (old new : Content) : Updates :=
  .ofList (lostFields old new ++ gainedFields old new ++
    (if old.text = new.text then [] else [(textKey, ⟨old.text, new.text⟩)]) ++
    (if old.label = new.label then [] else [(labelKey, ⟨some old.label, some new.label⟩)]))

end Content

end FlowMerge
