import MethodFlow.Flow.Analysis
import MethodFlow.Hierarchy

/-!
# Type inference

A fact gives variables the type of the value that they hold: null, a known type, or a type that
varies.  Where paths meet, two known types are widened to their closest common supertype, if
there is one.
-/

namespace MethodFlow

/-- What is known of the type of a value. -/
inductive InferredType where
  | null
  | known (type : TypeName)
  | varying
  deriving DecidableEq, Repr, Inhabited

/-- The closest common supertype of two types.  Of the common ancestors without another common
ancestor below them, the first that is no interface is taken, or the only one. -/
def Hierarchy.commonSupertype? (h : Hierarchy) (a b : TypeName) : Option TypeName :=
  if h.isSubtype a b then some b
  else if h.isSubtype b a then some a
  else
    let ofB := h.ancestors b
    let shared := (h.ancestors a).toList.filter ofB.contains
    let minimal := shared.filter fun t => !shared.any fun other => other ≠ t && h.isSubtype other t
    match minimal.find? fun t => !h.isInterface t with
    | some t => some t
    | none =>
      match minimal with
      | [t] => some t
      | _ => none

namespace InferredType

/-- The name of a known type. -/
def typeName? : InferredType → Option TypeName
  | .known type => some type
  | _ => none

/-- The written form. -/
def render : InferredType → String
  | .null => "null"
  | .known type => type
  | .varying => "varying"

/-- What is known of a value that has one of two types. -/
def merge (h : Hierarchy) (a b : InferredType) : InferredType :=
  if a = b then a
  else
    match a, b with
    | .null, .known type => .known type
    | .known type, .null => .known type
    | .known s, .known t =>
      match h.commonSupertype? s t with
      | some common => .known common
      | none => .varying
    | _, _ => .varying

end InferredType

/-- The types of variables. -/
structure TypeFacts where
  types : SortedMap Variable InferredType
  deriving DecidableEq

namespace TypeFacts

/-- Nothing known. -/
def empty : TypeFacts := ⟨.empty⟩

/-- What is known of a variable. -/
def get? (f : TypeFacts) (x : Variable) : Option InferredType := f.types.get? x

/-- The known type of a variable. -/
def typeName? (f : TypeFacts) (x : Variable) : Option TypeName := (f.get? x).bind (·.typeName?)

/-- The number of variables of which something is known. -/
def size (f : TypeFacts) : Nat := f.types.size

def isEmpty (f : TypeFacts) : Bool := f.types.isEmpty

/-- Replaces what is known of a variable, or forgets it. -/
def assign (f : TypeFacts) (x : Variable) : Option InferredType → TypeFacts
  | some type => ⟨f.types.insert x type⟩
  | none => ⟨f.types.erase x⟩

/-- The declared type of a variable. -/
def declared (x : Variable) : Option InferredType := x.type.map .known

/-- The type of the value that an operation writes to `dest`. -/
def produced (f : TypeFacts) (dest : Variable) : Operation → Option InferredType
  | .loadNull _ => some .null
  | .createObject _ type _ => some (.known type)
  | .createArray _ elementType => some (.known (elementType ++ "[]"))
  | .copy _ source => ((f.get? source).or (declared source)).or (declared dest)
  | _ => declared dest

/-- The types after an instruction. -/
def apply (f : TypeFacts) (i : Instruction) : TypeFacts :=
  match i.op.defined with
  | some dest => f.assign dest (f.produced dest i.op)
  | none => f

/-- The types where a path with facts `f` meets one with facts `g`; a variable of which only one
knows something keeps that. -/
def merge (h : Hierarchy) (f g : TypeFacts) : TypeFacts :=
  g.types.toList.foldl
    (fun f e =>
      let merged := match f.get? e.1 with
        | some known => known.merge h e.2
        | none => e.2
      ⟨f.types.insert e.1 merged⟩)
    f

/-- The types where several paths meet. -/
def join (h : Hierarchy) : List TypeFacts → TypeFacts
  | [] => empty
  | first :: rest => rest.foldl (merge h) first

/-- The declared types of the parameters. -/
def ofParameters (parameters : List Variable) : TypeFacts :=
  parameters.foldl (fun f x => f.assign x (declared x)) empty

/-- The type inference analysis of the graph of a method with the given parameters. -/
def analysis (h : Hierarchy) (parameters : List Variable) (c : Cfg) : Analysis Unit TypeFacts where
  name := "type-inference"
  direction := .forward
  boundary := ofParameters parameters
  initial := empty
  join facts := .ok (join h facts)
  transfer _ n fact := .ok ((c.codeOf n).foldl apply fact, ())
  same a b := a == b

end TypeFacts

/-- The types when control reaches the exit. -/
def Solution.typesAtExit? (s : Solution Unit TypeFacts) : Option TypeFacts := s.input? Cfg.exit

end MethodFlow
