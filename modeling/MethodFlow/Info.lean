import MethodFlow.Data.SortedMap
import MethodFlow.Error
import MethodFlow.Text.Quoted

/-!
# Facts about subjects

Analyses leave facts about a subject (a method, a node) in a bag, under a key.  A key is a name
together with the type of its values.  Types are listed by a tag type `τ`, and `val` says which
type a tag stands for.  Two keys of the same name name the same fact, but only a key of the right
type can read it.
-/

namespace MethodFlow

universe u v

/-- A name for facts of one type. -/
structure InfoKey {τ : Type} (tag : τ) where
  name : String
  deriving DecidableEq, Repr

/-- The written form of a key. -/
def InfoKey.describe {τ : Type} {tag : τ} (k : InfoKey tag) : String := s!"InfoKey({k.name})"

/-- The facts about one subject by name, each with the tag of its type. -/
structure InfoBag (τ : Type) (val : τ → Type) where
  facts : SortedMap String ((t : τ) × val t)

namespace InfoBag

variable {τ : Type} [DecidableEq τ] {val : τ → Type} {tag : τ}

/-- The bag without facts. -/
def empty : InfoBag τ val := ⟨.empty⟩

/-- Stores a fact in place of the one of the same name, of whatever type. -/
def set (b : InfoBag τ val) (k : InfoKey tag) (value : val tag) : InfoBag τ val :=
  ⟨b.facts.insert k.name ⟨tag, value⟩⟩

/-- Reads a stored fact as a fact of the given type. -/
def read (tag : τ) (fact : (t : τ) × val t) : Option (val tag) :=
  if h : fact.1 = tag then some (h ▸ fact.2) else none

/-- The fact of a key; it may be missing or of another type. -/
def get (b : InfoBag τ val) (k : InfoKey tag) : Except Error (val tag) :=
  match b.facts.get? k.name with
  | none => .error (.infoMissing k.name)
  | some fact =>
    match read tag fact with
    | some value => .ok value
    | none => .error (.infoTypeMismatch k.name)

/-- The fact of a key, if it is there and of the right type. -/
def get? (b : InfoBag τ val) (k : InfoKey tag) : Option (val tag) := (b.get k).toOption

/-- Whether there is a fact of that name, of whatever type. -/
def contains (b : InfoBag τ val) (k : InfoKey tag) : Bool := b.facts.contains k.name

/-- Takes the fact of a key out; a fact of another type stays. -/
def take (b : InfoBag τ val) (k : InfoKey tag) : Option (val tag) × InfoBag τ val :=
  match b.get? k with
  | some value => (some value, ⟨b.facts.erase k.name⟩)
  | none => (none, b)

/-- The number of facts. -/
def size (b : InfoBag τ val) : Nat := b.facts.size

def isEmpty (b : InfoBag τ val) : Bool := b.facts.isEmpty

/-- The names of the facts. -/
def describe (b : InfoBag τ val) : String :=
  "AnalysisInfo \x7b keys: [" ++ ", ".intercalate (b.facts.keys.map quoted) ++ "] \x7d"

end InfoBag

/-- A bag of facts for each subject. -/
structure InfoStore (α : Type) [Ordered α] (τ : Type) (val : τ → Type) where
  bags : SortedMap α (InfoBag τ val)

namespace InfoStore

variable {α : Type} [Ordered α] {τ : Type} [DecidableEq τ] {val : τ → Type} {tag : τ}

/-- The store without subjects. -/
def empty : InfoStore α τ val := ⟨.empty⟩

/-- The bag of a subject, if the subject has one. -/
def bag? (s : InfoStore α τ val) (subject : α) : Option (InfoBag τ val) := s.bags.get? subject

/-- The bag of a subject, empty if it has none yet. -/
def bag (s : InfoStore α τ val) (subject : α) : InfoBag τ val := (s.bag? subject).getD .empty

/-- Gives a subject a bag. -/
def put (s : InfoStore α τ val) (subject : α) (b : InfoBag τ val) : InfoStore α τ val :=
  ⟨s.bags.insert subject b⟩

/-- Stores a fact about a subject. -/
def set (s : InfoStore α τ val) (subject : α) (k : InfoKey tag) (value : val tag) :
    InfoStore α τ val :=
  s.put subject ((s.bag subject).set k value)

/-- A fact about a subject. -/
def get (s : InfoStore α τ val) (subject : α) (k : InfoKey tag) : Except Error (val tag) :=
  match s.bag? subject with
  | some b => b.get k
  | none => .error (.infoMissing k.name)

/-- A fact about a subject, if it is there and of the right type. -/
def get? (s : InfoStore α τ val) (subject : α) (k : InfoKey tag) : Option (val tag) :=
  (s.bag? subject).bind fun b => b.get? k

/-- Forgets a subject. -/
def erase (s : InfoStore α τ val) (subject : α) : InfoStore α τ val := ⟨s.bags.erase subject⟩

/-- The number of subjects. -/
def size (s : InfoStore α τ val) : Nat := s.bags.size

def isEmpty (s : InfoStore α τ val) : Bool := s.bags.isEmpty

end InfoStore

end MethodFlow
