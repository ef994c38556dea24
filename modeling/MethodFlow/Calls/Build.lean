import MethodFlow.Calls.Graph
import MethodFlow.Hierarchy

/-!
# Building the call graph of a universe

A static call, a call of a method that is not virtual, and a call on an unknown type go to the
method that the instruction names.  Any other call may go to whatever implementation the
declaring type or one of its descendants has or inherits, interfaces and abstract methods
excepted.

The graph holds the methods that the roots reach, each with the call sites of its body.
-/

namespace MethodFlow

/-- The calls of a method body: the instruction's label, the method it names and the dispatch.
The creation of an object calls the constructor. -/
def Body.calls (b : Body) : List (String × MethodRef × Dispatch) :=
  b.code.filterMap fun i =>
    match i.op with
    | .call _ method _ dispatch => some (i.offset.label, method, dispatch)
    | .createObject _ _ constructor => some (i.offset.label, constructor, .static)
    | _ => none

namespace Universe

/-- The first declaration of a slot on the way up from a type, within a number of steps. -/
def declaration? (u : Universe) (slot : MethodRef) : Nat → Option TypeDef → Option MethodDef
  | 0, _ => none
  | _ + 1, none => none
  | steps + 1, some t =>
    match t.findMethod? slot with
    | some m => some m
    | none => u.declaration? slot steps (t.base.bind u.get?)

/-- The method that a call of a slot on an object of a type runs: the first declaration on the
way up, unless it is abstract.  The way is at most as long as there are types, so bases that form
a cycle do no harm. -/
def implementation? (u : Universe) (type : TypeName) (slot : MethodRef) : Option MethodDef :=
  (u.declaration? slot (u.size + 1) (u.get? type)).filter fun m => !m.isAbstract

/-- Whether a call is dispatched by the type of the object. -/
def isDispatched (u : Universe) (target : MethodRef) (dispatch : Dispatch) : Bool :=
  dispatch == .virtual && ((u.method? target).all MethodDef.isVirtual)
    && (u.get? target.declaringType).isSome

/-- The methods that a call may run. -/
def resolve (u : Universe) (h : Hierarchy) (target : MethodRef) (dispatch : Dispatch) :
    SortedSet MethodRef :=
  if u.isDispatched target dispatch then
    let types := target.declaringType :: (h.descendants target.declaringType).toList
    SortedSet.ofList ((types.filter fun t => !h.isInterface t).filterMap fun t =>
      (u.implementation? t target).map MethodDef.reference)
  else .singleton target

/-- The calls of the body of a method; none if it has no body. -/
def callsOf (u : Universe) (m : MethodRef) : List (String × MethodRef × Dispatch) :=
  (((u.method? m).bind MethodDef.body).map Body.calls).getD []

/-- The methods that the body of a method may call. -/
def calleesOf (u : Universe) (h : Hierarchy) (m : MethodRef) : List MethodRef :=
  (u.callsOf m).flatMap fun call => (u.resolve h call.2.1 call.2.2).toList

/-- The methods that any body of the universe may call. -/
def allCallees (u : Universe) (h : Hierarchy) : List MethodRef :=
  u.toList.flatMap fun t => t.methods.flatMap fun m =>
    ((m.body.map Body.calls).getD []).flatMap fun call => (u.resolve h call.2.1 call.2.2).toList

/-- The methods that the roots reach. -/
def reached (u : Universe) (h : Hierarchy) (roots : List MethodRef) : List MethodRef :=
  explore (u.calleesOf h) (SortedSet.ofList (roots ++ u.allCallees h)).toList roots

end Universe

namespace CallGraph

/-- Records one call of a method. -/
def addCall (u : Universe) (h : Hierarchy) (m : MethodRef) (g : CallGraph)
    (call : String × MethodRef × Dispatch) : Except Error CallGraph :=
  (g.addSite m call.1 call.2.1).addCallees m call.1 (u.resolve h call.2.1 call.2.2).toList

/-- Records a method and the calls of its body. -/
def addMethod (u : Universe) (h : Hierarchy) (g : CallGraph) (m : MethodRef) :
    Except Error CallGraph :=
  (u.callsOf m).foldlM (addCall u h m) (g.touch m)

/-- The call graph of what the roots reach.  Every root must be declared. -/
def build (u : Universe) (h : Hierarchy) (roots : List MethodRef) : Except Error CallGraph :=
  match roots.find? fun m => (u.method? m).isNone with
  | some m => .error (.methodNotFound m)
  | none => (u.reached h roots).foldlM (addMethod u h) (roots.foldl addRoot empty)

/-- The call graph of what the roots reach in a universe whose hierarchy is not known yet. -/
def ofUniverse (u : Universe) (roots : List MethodRef) : Except Error CallGraph :=
  build u (Hierarchy.ofUniverse u) roots

/-- What the construction of the graph says about itself. -/
def event (g : CallGraph) (roots : List MethodRef) : LogEvent :=
  ⟨.debug, s!"call graph: {g.methodCount} methods, {g.siteCount} call sites "
    ++ s!"from {roots.length} roots"⟩

end CallGraph

end MethodFlow
