import MethodFlow.Data.SortedMap
import MethodFlow.Data.SortedSet
import MethodFlow.Error
import MethodFlow.Graph.Search

/-!
# Call graphs

A call graph records, for each method, its call sites with the methods that they may call, and
the call sites that may call it.  A call site is named by its caller and a label.
-/

namespace MethodFlow

/-- A place where a method calls. -/
structure CallSite where
  label : String
  /-- The method that the instruction names. -/
  target : MethodRef
  /-- The methods that may be called. -/
  callees : SortedSet MethodRef
  deriving DecidableEq

namespace CallSite

/-- Whether a callee is known. -/
def isResolved (s : CallSite) : Bool := !s.callees.isEmpty

/-- Whether several callees are known. -/
def isPolymorphic (s : CallSite) : Bool := s.callees.size > 1

/-- The written form of a call site. -/
def render (s : CallSite) : String :=
  s.label ++ ": " ++ s.target.render ++
    (if s.isResolved then
      " -> [" ++ ", ".intercalate (s.callees.toList.map MethodRef.render) ++ "]"
    else "")

end CallSite

/-- The name of a call site. -/
structure CallSiteRef where
  caller : MethodRef
  label : String
  deriving DecidableEq, Repr

namespace CallSiteRef

/-- Call sites are ordered by caller, then label. -/
instance : Ordered CallSiteRef :=
  Ordered.ofKey (fun s => (s.caller, s.label)) (by
    intro a b h
    cases a; cases b
    simp only [Prod.mk.injEq] at h
    simp [h])

/-- The written form of the name. -/
def render (s : CallSiteRef) : String := s.caller.render ++ "@" ++ s.label

end CallSiteRef

/-- What is known of the calls of and to a method. -/
structure MethodCalls where
  sites : SortedMap String CallSite
  /-- The call sites that may call the method. -/
  invocations : SortedSet CallSiteRef
  isRoot : Bool
  deriving DecidableEq

/-- A method of which nothing is known. -/
def MethodCalls.empty : MethodCalls := ⟨.empty, .empty, false⟩

/-- A call graph. -/
structure CallGraph where
  methods : SortedMap MethodRef MethodCalls
  roots : SortedSet MethodRef
  deriving DecidableEq

namespace CallGraph

/-- The graph without methods. -/
def empty : CallGraph := ⟨.empty, .empty⟩

/-! ## Questions -/

/-- What is known of a method. -/
def calls? (g : CallGraph) (m : MethodRef) : Option MethodCalls := g.methods.get? m

/-- What is known of a method, nothing if it has no record. -/
def calls (g : CallGraph) (m : MethodRef) : MethodCalls := (g.calls? m).getD .empty

/-- A call site of a method. -/
def site? (g : CallGraph) (m : MethodRef) (label : String) : Option CallSite :=
  (g.calls? m).bind fun c => c.sites.get? label

/-- The methods that a method may call. -/
def callees (g : CallGraph) (m : MethodRef) : SortedSet MethodRef :=
  SortedSet.ofList ((g.calls m).sites.values.flatMap fun s => s.callees.toList)

/-- The methods that may call a method. -/
def callers (g : CallGraph) (m : MethodRef) : SortedSet MethodRef :=
  SortedSet.ofList ((g.calls m).invocations.toList.map CallSiteRef.caller)

def isRoot (g : CallGraph) (m : MethodRef) : Bool := g.roots.contains m

/-- The number of methods with a record. -/
def methodCount (g : CallGraph) : Nat := g.methods.size

/-- The number of call sites. -/
def siteCount (g : CallGraph) : Nat := g.methods.values.foldr (fun c n => c.sites.size + n) 0

/-- The methods that the roots reach by calls. -/
def reachable (g : CallGraph) : SortedSet MethodRef :=
  SortedSet.ofList (explore (fun m => (g.callees m).toList) g.methods.keys g.roots.toList)

/-! ## Changes -/

/-- Replaces what is known of a method. -/
def put (g : CallGraph) (m : MethodRef) (calls : MethodCalls) : CallGraph :=
  { g with methods := g.methods.insert m calls }

/-- Gives a method a record. -/
def touch (g : CallGraph) (m : MethodRef) : CallGraph := g.put m (g.calls m)

/-- Makes a method a root. -/
def addRoot (g : CallGraph) (m : MethodRef) : CallGraph :=
  { g.put m { g.calls m with isRoot := true } with roots := g.roots.insert m }

/-- Adds a call site; a site of that label stays as it is. -/
def addSite (g : CallGraph) (caller : MethodRef) (label : String) (target : MethodRef) :
    CallGraph :=
  let calls := g.calls caller
  let site := (calls.sites.get? label).getD ⟨label, target, .empty⟩
  g.put caller { calls with sites := calls.sites.insert label site }

/-- Records a callee at its call site. -/
def attach (c : MethodCalls) (label : String) (callee : MethodRef) : MethodCalls :=
  { c with sites := c.sites.modify label fun s => { s with callees := s.callees.insert callee } }

/-- Records a call site at a callee. -/
def invoke (c : MethodCalls) (site : CallSiteRef) : MethodCalls :=
  { c with invocations := c.invocations.insert site }

/-- Records a callee at both ends. -/
def link (g : CallGraph) (caller : MethodRef) (label : String) (callee : MethodRef) : CallGraph :=
  let g := g.put caller (attach (g.calls caller) label callee)
  g.put callee (invoke (g.calls callee) ⟨caller, label⟩)

/-- Adds callees to a call site. -/
def addCallees (g : CallGraph) (caller : MethodRef) (label : String) (callees : List MethodRef) :
    Except Error CallGraph :=
  match g.site? caller label with
  | none => .error (.callSiteMissing caller label)
  | some _ => .ok (callees.foldl (fun g m => g.link caller label m) g)

end CallGraph

end MethodFlow
