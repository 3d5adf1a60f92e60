import Mathlib

/-!
# Interface resources

The parser of interface resources calls `startElement` and `endElement`, which keep the path of the
elements that are open, flags that are set when a host or an interface was seen, and pointers to the
current host and the current interface. A document has hosts, with properties and interfaces, which
have properties.

The flags are not reset.  Once an interface was seen, each element of a host that is closed adds the
current interface to the host again, a property like an interface; and it is looked up whether the
local host is among the live ones, not the host at hand.

* `run_hosts` — what the handlers do for hosts, in terms of what each host adds.
* `faithful_iff` — **when the list of interfaces has those of the admitted hosts, each once, with
their properties.** -/

set_option autoImplicit false

namespace Tigon.Ftacmp.IfaceQ

open List

/-! ## Interfaces and hosts -/

/-- The vectors of values, by names: the values in the order in which they were added, each with its
name. -/
abbrev Properties := List (String × String)

/-- The vector of a name. -/
def valuesOf (vals : Properties) (name : String) : List String :=
  (vals.filter fun p ↦ p.1 == name).map (·.2)

/-- `add_property` of an attribute. -/
def addProperty (vals : Properties) (name att : String) : Properties :=
  vals ++ [(name.toLower, att)]

/-- `add_property` of an element.  Its value is that of its first attribute. -/
def addElement (vals : Properties) (name : String) (valVec : List String) : Properties :=
  vals ++ [(name.toLower, valVec.headD "")]

/-- Attributes of an element, with their values. -/
abbrev Attributes := List (String × String)

def addAttributes (vals : Properties) (attrs : Attributes) : Properties :=
  attrs.foldl (fun vals a ↦ addProperty vals a.1 a.2) vals

/-- `finalize` has an error unless there is one name. -/
def hasError (vals : Properties) : Bool := (valuesOf vals "name").length != 1

structure GsHost where
  vals : Properties
  /-- Pointers to interfaces. -/
  ifaces : List Nat
deriving DecidableEq

structure Config where
  hostname : String
  distributedMode : Bool
  useLiveHostsFile : Bool
  liveHosts : List String

/-- The state of the handlers.  Interfaces are allocated one after the other; a pointer is none
while it points to nothing. -/
structure ResparseData where
  level : List String
  inResources : Bool
  inIface : Bool
  inHost : Bool
  currIface : Option Nat
  currHost : Option GsHost
  failure : Bool
  ifaces : List Nat
  hosts : List GsHost
  heap : List Properties
deriving DecidableEq

/-- What the parser calls. -/
inductive Event
  | start (name : String) (attrs : Attributes)
  | stop (name : String)

namespace ResparseData

variable (cfg : Config)

def init : ResparseData where
  level := []
  inResources := false
  inIface := false
  inHost := false
  currIface := none
  currHost := none
  failure := false
  ifaces := []
  hosts := []
  heap := []

/-- The host that the handlers of level two start. -/
def openHost (rpd : ResparseData) (attrs : Attributes) : ResparseData :=
  { rpd with currHost := some ⟨addAttributes [] attrs, []⟩, inHost := true }

/-- An interface, or a property of the current host. -/
def openInHost (rpd : ResparseData) (name : String) (attrs : Attributes) : Option ResparseData :=
  if name = "Interface" then
    some { rpd with
      heap := rpd.heap ++ [addAttributes [] attrs], currIface :=
        some rpd.heap.length, inIface := true }
  else
    rpd.currHost.map fun host ↦
      { rpd with currHost := some { host with
        vals := addElement host.vals name (attrs.map (·.2)) } }

/-- A property of the current interface. -/
def openInIface (rpd : ResparseData) (name : String) (attrs : Attributes) : Option ResparseData :=
  rpd.currIface.map fun p ↦ { rpd with
    heap := rpd.heap.modify p fun vals ↦ addElement vals name (attrs.map (·.2)) }

/-- There is no result where a pointer is used that points to nothing. -/
def startElement (rpd : ResparseData) (name : String) (attrs : Attributes) :
    Option ResparseData := do
  let rpd := { rpd with level := rpd.level ++ [name] }
  let rpd := if rpd.level = ["Resources"] then { rpd with inResources := true } else rpd
  let rpd := if rpd.inResources ∧ rpd.level.length = 2 ∧
    name = "Host" then rpd.openHost attrs else rpd
  let rpd ← if rpd.inHost ∧ rpd.level.length = 3 then rpd.openInHost name attrs else some rpd
  if rpd.inIface ∧ rpd.level.length = 4 then rpd.openInIface name attrs else some rpd

/-- An interface with an error is deleted; another one is added to the current host. -/
def finalizeIface (rpd : ResparseData) : Option ResparseData := do
  let p ← rpd.currIface
  let vals ← rpd.heap[p]?
  if hasError vals then some { rpd with currIface := none, failure := true }
  else
    let host ← rpd.currHost
    some { rpd with currHost := some { host with ifaces := host.ifaces ++ [p] } }

/-- The host is admitted, as it is tested. -/
def admits (host : String) : Bool :=
  (cfg.distributedMode || host == cfg.hostname) &&
    (!cfg.useLiveHostsFile || cfg.liveHosts.contains cfg.hostname)

/-- Each pointer of a list gets a property. -/
def propagate (heap : List Properties) (name : String) (ptrs : List Nat) : List Properties :=
  ptrs.foldl (fun heap p ↦ heap.modify p fun vals ↦ addElement vals "host" [name]) heap

/-- A host with an error is deleted; the interfaces of another one are added to the list, if it is
admitted. -/
def finalizeHost (rpd : ResparseData) : Option ResparseData := do
  let host ← rpd.currHost
  if hasError host.vals then some { rpd with currHost := none, failure := true }
  else
    let name := (valuesOf host.vals "name").headD ""
    if admits cfg name then
      some { rpd with
        hosts := rpd.hosts ++ [host]
        heap := propagate rpd.heap name host.ifaces
        ifaces := rpd.ifaces ++ host.ifaces }
    else some rpd

def endElement (rpd : ResparseData) : Option ResparseData := do
  let rpd ←
    if rpd.inIface ∧ rpd.level.length = 3 then rpd.finalizeIface
    else if rpd.inHost ∧ rpd.level.length = 2 then rpd.finalizeHost cfg
    else some rpd
  some { rpd with level := rpd.level.dropLast }

def step (rpd : ResparseData) : Event → Option ResparseData
  | .start name attrs => rpd.startElement name attrs
  | .stop _ => rpd.endElement cfg

/-- The state after some calls. -/
def run (rpd : ResparseData) (events : List Event) : Option ResparseData :=
  events.foldlM (step cfg) rpd

/-- The interfaces of the list, with their properties. -/
def ifaceList (rpd : ResparseData) : List Properties := rpd.ifaces.filterMap fun p ↦ rpd.heap[p]?

end ResparseData

/-! ## Documents -/

/-- An element without elements in it. -/
structure Element where
  name : String
  attrs : Attributes

/-- The property that an element stands for. -/
def Element.property (e : Element) : String × String :=
  (e.name.toLower, (e.attrs.map (·.2)).headD "")

/-- The properties that attributes stand for. -/
def attrProperties (attrs : Attributes) : Properties := attrs.map fun a ↦ (a.1.toLower, a.2)

def Element.events (e : Element) : List Event := [.start e.name e.attrs, .stop e.name]

/-- An interface with one name. -/
structure Interface where
  attrs : Attributes
  properties : List Element
  one_name : (valuesOf (attrProperties attrs ++ properties.map Element.property) "name").length = 1

namespace Interface

def own (i : Interface) : Properties := attrProperties i.attrs ++ i.properties.map Element.property

def events (i : Interface) : List Event :=
  .start "Interface" i.attrs :: i.properties.flatMap Element.events ++ [.stop "Interface"]

end Interface

inductive HostChild
  | property (e : Element) (h : e.name ≠ "Interface")
  | interface (i : Interface)

namespace HostChild

def events : HostChild → List Event
  | property e _ => e.events
  | interface i => i.events

def property? : HostChild → Option (String × String)
  | property e _ => some e.property
  | interface _ => none

def interface? : HostChild → Option Interface
  | property _ _ => none
  | interface i => some i

end HostChild

/-- A host with one name. -/
structure Host where
  attrs : Attributes
  children : List HostChild
  one_name : (valuesOf (attrProperties attrs ++ children.filterMap HostChild.property?)
    "name").length = 1

namespace Host

def own (h : Host) : Properties := attrProperties h.attrs ++ h.children.filterMap
    HostChild.property?

def name (h : Host) : String := (valuesOf h.own "name").headD ""

def interfaces (h : Host) : List Interface := h.children.filterMap HostChild.interface?

def events (h : Host) : List Event :=
  .start "Host" h.attrs :: h.children.flatMap HostChild.events ++ [.stop "Host"]

end Host

structure Document where
  attrs : Attributes
  hosts : List Host

def Document.events (doc : Document) : List Event :=
  .start "Resources" doc.attrs :: doc.hosts.flatMap Host.events ++ [.stop "Resources"]

/-! ## What is to be built -/

/-- The hosts that are to be admitted. -/
def Admitted (cfg : Config) (h : Host) : Prop :=
  (cfg.distributedMode = true ∨ h.name = cfg.hostname) ∧
    (cfg.useLiveHostsFile = true → h.name ∈ cfg.liveHosts)

instance instDecidableAdmitted (cfg : Config) (h : Host) : Decidable (Admitted cfg h) :=
  inferInstanceAs (Decidable (_ ∧ _))

/-- The interfaces of a host, with the name of the host. -/
def Host.complete (h : Host) : List Properties :=
  h.interfaces.map fun i ↦ i.own ++ [("host", h.name)]

def Document.expected (cfg : Config) (doc : Document) : List Properties :=
  (doc.hosts.filter fun h ↦ Admitted cfg h).flatMap Host.complete

/-- The list has the interfaces of the admitted hosts, and the hosts have their own properties. -/
def Faithful (cfg : Config) (doc : Document) : Prop :=
  ∃ rpd, ResparseData.init.run cfg doc.events = some rpd ∧ rpd.failure = false ∧
    rpd.ifaceList = doc.expected cfg ∧ (rpd.hosts.map GsHost.vals).Sublist (doc.hosts.map Host.own)

/-- The properties of a host that come after an interface. -/
def late (seen : Bool) : List HostChild → List Element
  | [] => []
  | .property e _ :: children => (if seen then [e] else []) ++ late seen children
  | .interface _ :: children => late true children

/-- No property of an admitted host comes after an interface of the document, and the test admits
the right hosts among those with interfaces. -/
def Sound (cfg : Config) : Bool → List Host → Prop
  | _, [] => True
  | seen, h :: hosts =>
    (ResparseData.admits cfg h.name = true → late seen h.children = []) ∧
      (h.interfaces ≠ [] → (ResparseData.admits cfg h.name = true ↔ Admitted cfg h)) ∧
      Sound cfg (seen || !h.interfaces.isEmpty) hosts

/-! ## Properties -/

theorem addAttributes_eq (vals : Properties) (attrs : Attributes) :
    addAttributes vals attrs = vals ++ attrProperties attrs := by
  induction attrs generalizing vals with
  | nil => exact (append_nil vals).symm
  | cons a attrs ih =>
    show addAttributes (addProperty vals a.1 a.2) attrs = _
    rw [ih, addProperty, append_assoc]
    rfl

theorem addElement_eq (vals : Properties) (e : Element) :
    addElement vals e.name (e.attrs.map (·.2)) = vals ++ [e.property] := rfl

theorem hasError_eq_false_iff (vals : Properties) : hasError vals = false ↔
    (valuesOf vals "name").length = 1 := by
  rw [hasError, bne_eq_false_iff_eq]

theorem Interface.hasError_own (i : Interface) : hasError i.own = false :=
  (hasError_eq_false_iff _).mpr i.one_name

theorem Host.hasError_own (h : Host) : hasError h.own = false :=
  (hasError_eq_false_iff _).mpr h.one_name

/-- The name of the host is not a name of the interface. -/
theorem hasError_addElement_host (vals : Properties) (name : String) :
    hasError (addElement vals "host" [name]) = hasError vals := by
  have hne : ("host".toLower == "name") = false := by decide +kernel
  simp [hasError, valuesOf, addElement, hne]

/-! ## Runs -/

/-- What is built when no element of a host is open. -/
structure Built where
  heap : List Properties
  currIface : Option Nat
  ifaces : List Nat
  hosts : List GsHost

namespace Built

/-- Each interface has one name, and pointers point to interfaces. -/
structure Valid (b : Built) : Prop where
  one_name : ∀ vals ∈ b.heap, hasError vals = false
  currIface_lt : ∀ p ∈ b.currIface, p < b.heap.length
  lt_of_mem : ∀ p ∈ b.ifaces, p < b.heap.length

/-- The state with some elements open. -/
def state (b : Built) (level : List String) (inHost : Bool) (currHost : Option GsHost) :
    ResparseData where
  level := level
  inResources := true
  inIface := b.currIface.isSome
  inHost := inHost
  currIface := b.currIface
  currHost := currHost
  failure := false
  ifaces := b.ifaces
  hosts := b.hosts
  heap := b.heap

/-- The state while a host is open. -/
def within (b : Built) (host : GsHost) : ResparseData :=
  b.state ["Resources", "Host"] true (some host)

end Built

section

variable {cfg : Config} {b : Built} {host : GsHost}

theorem run_append (rpd : ResparseData) (events events' : List Event) :
    rpd.run cfg (events ++ events') = (rpd.run cfg events).bind fun rpd ↦ rpd.run cfg events' := by
  rw [ResparseData.run, foldlM_append]
  rfl

theorem run_cons (rpd : ResparseData) (event : Event) (events : List Event) :
    rpd.run cfg (event :: events) = (rpd.step cfg event).bind fun rpd ↦ rpd.run cfg events := rfl

/-- A property of a host adds the current interface once more. -/
theorem run_property (hvalid : b.Valid) (e : Element) (hname : e.name ≠ "Interface") :
    (b.within host).run cfg e.events =
      some (b.within ⟨host.vals ++ [e.property], host.ifaces ++ b.currIface.toList⟩) := by
  have hstart : (b.within host).step cfg (.start e.name e.attrs) =
      some (b.state ["Resources", "Host", e.name]
        true (some ⟨host.vals ++ [e.property], host.ifaces⟩)) := by
    simp [ResparseData.step, ResparseData.startElement, ResparseData.openInHost, Built.within,
      Built.state, hname, addElement_eq]
  rw [Element.events, run_cons, hstart, Option.bind_some, run_cons]
  match hcurr : b.currIface with
  | none =>
    simp [ResparseData.step, ResparseData.endElement, Built.within, Built.state, hcurr,
      ResparseData.run]
  | some p =>
    have hlt := hvalid.currIface_lt p hcurr
    have hnamed := hvalid.one_name _ (getElem_mem hlt)
    simp [ResparseData.step, ResparseData.endElement, ResparseData.finalizeIface, Built.within,
      Built.state, hcurr, ResparseData.run, getElem?_eq_getElem hlt, hnamed]

theorem modify_concat (heap : List Properties) (vals : Properties) (f : Properties → Properties) :
    (heap ++ [vals]).modify heap.length f = heap ++ [f vals] := by
  induction heap with
  | nil => rfl
  | cons a heap ih => exact congrArg (a :: ·) ih

variable (cfg) in
/-- The properties of an interface, one after the other. -/
theorem run_properties (heap : List Properties) (vals : Properties) (es : List Element) :
    ∀ (rpd : ResparseData), rpd.level = ["Resources", "Host", "Interface"] → rpd.inIface = true →
      rpd.currIface = some heap.length → rpd.heap = heap ++ [vals] →
        rpd.run cfg (es.flatMap Element.events) =
          some { rpd with heap := heap ++ [vals ++ es.map Element.property] } := by
  induction es generalizing vals with
  | nil =>
    intro rpd hlevel hin hcurr hheap
    have hend : { rpd with heap := heap ++ [vals ++ [].map Element.property] } = rpd := by
      rw [map_nil, append_nil, ← hheap]
    rw [hend]
    rfl
  | cons e es ih =>
    intro rpd hlevel hin hcurr hheap
    have hstart : rpd.step cfg (.start e.name e.attrs) = some { rpd with
        level := ["Resources", "Host", "Interface", e.name], heap :=
          heap ++ [vals ++ [e.property]] } := by
      simp [ResparseData.step, ResparseData.startElement, ResparseData.openInIface, hlevel,
        hin, hcurr, hheap, addElement_eq, modify_concat]
    have hstop : ({ rpd with
        level := ["Resources", "Host", "Interface", e.name], heap :=
          heap ++ [vals ++ [e.property]] } :
          ResparseData).step cfg (.stop e.name) =
            some { rpd with heap := heap ++ [vals ++ [e.property]] } := by
      simp [ResparseData.step, ResparseData.endElement, ← hlevel]
    rw [flatMap_cons, run_append, Element.events, run_cons, hstart, Option.bind_some,
      run_cons, hstop, Option.bind_some]
    have hnext := ih (vals ++ [e.property]) { rpd with heap := heap ++ [vals ++ [e.property]] }
      hlevel hin hcurr rfl
    rw [append_assoc] at hnext
    exact hnext

/-- What is built after an interface was closed. -/
def Built.push (b : Built) (i : Interface) : Built :=
  { b with heap := b.heap ++ [i.own], currIface := some b.heap.length }

theorem Built.Valid.push (hvalid : b.Valid) (i : Interface) : (b.push i).Valid where
  one_name vals hvals := by
    rcases mem_append.mp hvals with hvals | hvals
    · exact hvalid.one_name vals hvals
    · obtain rfl := mem_singleton.mp hvals
      exact i.hasError_own
  currIface_lt p hp := by
    obtain rfl := Option.some.inj hp
    simp [Built.push]
  lt_of_mem p hp := by
    have hlt := hvalid.lt_of_mem p hp
    simp only [Built.push, length_append, length_singleton]
    omega

/-- An interface is added to its host. -/
theorem run_interface (i : Interface) :
    (b.within host).run cfg i.events =
      some ((b.push i).within { host with ifaces := host.ifaces ++ [b.heap.length] }) := by
  have hstart : (b.within host).step cfg (.start "Interface" i.attrs) =
      some (({ b with
        heap := b.heap ++ [attrProperties i.attrs], currIface := some b.heap.length } : Built).state
          ["Resources", "Host", "Interface"] true (some host)) := by
    simp [ResparseData.step, ResparseData.startElement, ResparseData.openInHost,
      Built.within, Built.state, addAttributes_eq]
  have hproperties := run_properties cfg b.heap (attrProperties i.attrs) i.properties
    (({ b with heap := b.heap ++ [attrProperties i.attrs], currIface := some b.heap.length } :
      Built).state ["Resources", "Host", "Interface"] true (some host)) rfl rfl rfl rfl
  have hnamed := i.hasError_own
  rw [Interface.events, cons_append, run_cons, hstart, Option.bind_some,
    run_append, hproperties, Option.bind_some, run_cons]
  have hheap : b.heap ++ [attrProperties i.attrs ++ i.properties.map Element.property] = b.heap ++
    [i.own] := rfl
  simp [ResparseData.step, ResparseData.endElement, ResparseData.finalizeIface, Built.within,
    Built.state, Built.push, ResparseData.run, hheap, hnamed]

/-- The pointers that the children of a host add to it, and the current interface after them, where
so many interfaces are allocated. -/
def refs (n : Nat) (curr : Option Nat) : List HostChild → List Nat × Option Nat
  | [] => ([], curr)
  | .property _ _ :: children => (curr.toList ++ (refs n curr children).1, (refs n curr children).2)
  | .interface _ :: children =>
    (n :: (refs (n + 1) (some n) children).1, (refs (n + 1) (some n) children).2)

/-- What is built by the children of a host. -/
def Built.pushAll (b : Built) (children : List HostChild) : Built :=
  { b with
    heap := b.heap ++ (children.filterMap HostChild.interface?).map Interface.own
    currIface := (refs b.heap.length b.currIface children).2 }

variable (cfg) in
theorem run_children (children : List HostChild) : ∀ (b : Built) (host : GsHost), b.Valid →
    (b.within host).run cfg (children.flatMap HostChild.events) =
        some ((b.pushAll children).within ⟨host.vals ++ children.filterMap HostChild.property?,
          host.ifaces ++ (refs b.heap.length b.currIface children).1⟩) ∧
      (b.pushAll children).Valid := by
  induction children with
  | nil =>
    intro b host hvalid
    have hpush : b.pushAll [] = b := by simp [Built.pushAll, refs]
    rw [hpush]
    refine ⟨?_, hvalid⟩
    simp [ResparseData.run, refs]
  | cons child children ih =>
    intro b host hvalid
    rw [flatMap_cons, run_append]
    match child with
    | .property e hname =>
      have hpush : b.pushAll (.property e hname :: children) = b.pushAll children := rfl
      obtain ⟨hrun, hvalid'⟩ := ih b
        ⟨host.vals ++ [e.property], host.ifaces ++ b.currIface.toList⟩ hvalid
      refine ⟨?_, hpush ▸ hvalid'⟩
      rw [HostChild.events, run_property hvalid e hname, Option.bind_some, hrun, hpush]
      simp [refs, HostChild.property?]
    | .interface i =>
      have hpush : b.pushAll (.interface i :: children) = (b.push i).pushAll children := by
        simp [Built.pushAll, Built.push, refs, HostChild.interface?]
      obtain ⟨hrun, hvalid'⟩ := ih (b.push i) { host with ifaces := host.ifaces ++ [b.heap.length] }
        (hvalid.push i)
      refine ⟨?_, hpush ▸ hvalid'⟩
      rw [HostChild.events, run_interface i, Option.bind_some, hrun, hpush]
      have hnone : (HostChild.interface i :: children).filterMap HostChild.property? =
          children.filterMap HostChild.property? := rfl
      simp [refs, hnone, Built.push]

/-- What is built by a host. -/
def Built.addHost (cfg : Config) (b : Built) (h : Host) : Built :=
  let ptrs := (refs b.heap.length b.currIface h.children).1
  if ResparseData.admits cfg h.name then
    { b.pushAll h.children with
      heap := ResparseData.propagate (b.pushAll h.children).heap h.name ptrs
      ifaces := b.ifaces ++ ptrs
      hosts := b.hosts ++ [⟨h.own, ptrs⟩] }
  else b.pushAll h.children

/-- Where no element is open but the resources. -/
def Built.between (b : Built) (inHost : Bool) (currHost : Option GsHost) : ResparseData :=
  b.state ["Resources"] inHost currHost

variable (cfg) in
theorem run_host (hvalid : b.Valid) (h : Host) (inHost : Bool) (currHost : Option GsHost) :
    ∃ currHost', (b.between inHost currHost).run cfg h.events =
      some ((b.addHost cfg h).between true currHost') := by
  have hstart : (b.between inHost currHost).step cfg (.start "Host" h.attrs) =
      some (b.within ⟨attrProperties h.attrs, []⟩) := by
    simp [ResparseData.step, ResparseData.startElement, ResparseData.openHost, Built.between,
      Built.within, Built.state, addAttributes_eq]
  have hchildren : (b.within ⟨attrProperties h.attrs, []⟩).run cfg
      (h.children.flatMap HostChild.events) =
        some ((b.pushAll h.children).within
          ⟨h.own, (refs b.heap.length b.currIface h.children).1⟩) :=
    (run_children cfg h.children b ⟨attrProperties h.attrs, []⟩ hvalid).1
  refine ⟨some ⟨h.own, (refs b.heap.length b.currIface h.children).1⟩, ?_⟩
  rw [Host.events, cons_append, run_cons, hstart, Option.bind_some, run_append, hchildren,
    Option.bind_some, run_cons]
  have hnamed := h.hasError_own
  have hname : (valuesOf h.own "name").head?.getD "" = h.name := (headD_eq_head?_getD).symm
  by_cases hadmits : ResparseData.admits cfg h.name = true
  · simp [ResparseData.step, ResparseData.endElement, ResparseData.finalizeHost,
      Built.within, Built.state, ResparseData.run, hnamed, hname, hadmits, Built.addHost,
        Built.between]
    exact ⟨rfl, rfl⟩
  · simp [ResparseData.step, ResparseData.endElement, ResparseData.finalizeHost,
      Built.within, Built.state, ResparseData.run, hnamed, hname, hadmits, Built.addHost,
        Built.between]

theorem length_modify_propagate (heap : List Properties) (name : String) (ptrs : List Nat) :
    (ResparseData.propagate heap name ptrs).length = heap.length := by
  induction ptrs generalizing heap with
  | nil => rfl
  | cons p ptrs ih =>
    show (ResparseData.propagate _ name ptrs).length = _
    rw [ih, length_modify]

theorem hasError_of_mem_propagate {heap : List Properties} {name : String} {ptrs : List Nat}
    (hheap : ∀ vals ∈ heap, hasError vals = false) :
    ∀ vals ∈ ResparseData.propagate heap name ptrs, hasError vals = false := by
  induction ptrs generalizing heap with
  | nil => exact hheap
  | cons p ptrs ih =>
    refine ih fun vals hvals ↦ ?_
    obtain ⟨i, hi, rfl⟩ := mem_iff_getElem.mp hvals
    rw [getElem_modify]
    rw [length_modify] at hi
    split
    · rw [hasError_addElement_host]
      exact hheap _ (getElem_mem hi)
    · exact hheap _ (getElem_mem hi)

/-- Pointers point to what is allocated. -/
theorem lt_of_mem_refs (children : List HostChild) : ∀ (n : Nat) (curr : Option Nat),
    (∀ p ∈ curr, p < n) → ∀ p ∈ (refs n curr children).1,
      p < n + (children.filterMap HostChild.interface?).length := by
  induction children with
  | nil => exact fun n curr _ p hp ↦ absurd hp not_mem_nil
  | cons child children ih =>
    intro n curr hcurr p hp
    match child with
    | .property e hname =>
      rcases mem_append.mp hp with hp | hp
      · exact Nat.lt_add_right _ (hcurr p (Option.mem_toList.mp hp))
      · exact ih n curr hcurr p hp
    | .interface i =>
      show p < n + ((children.filterMap HostChild.interface?).length + 1)
      rcases mem_cons.mp hp with rfl | hp
      · omega
      · have hlt := ih (n + 1) (some n) (fun q hq ↦ by obtain rfl := Option.some.inj hq; omega) p hp
        omega

theorem Built.Valid.addHost (hvalid : b.Valid) (h : Host) : (b.addHost cfg h).Valid := by
  have hpush := (run_children cfg h.children b ⟨[], []⟩ hvalid).2
  have hlength : (b.pushAll h.children).heap.length = b.heap.length + h.interfaces.length := by
    simp [Built.pushAll, Host.interfaces]
  rw [Built.addHost]
  split
  · refine ⟨hasError_of_mem_propagate hpush.one_name, fun p hp ↦ ?_, fun p hp ↦ ?_⟩
    · rw [length_modify_propagate]
      exact hpush.currIface_lt p hp
    · rw [length_modify_propagate, hlength]
      rcases mem_append.mp hp with hp | hp
      · exact Nat.lt_add_right _ (hvalid.lt_of_mem p hp)
      · exact lt_of_mem_refs h.children _ _ hvalid.currIface_lt p hp
  · exact hpush

variable (cfg) in
/-- **What the handlers build from the hosts of a document.** -/
theorem run_hosts (hosts : List Host) : ∀ (b : Built), b.Valid → ∀ inHost currHost,
    ∃ inHost' currHost', (b.between inHost currHost).run cfg (hosts.flatMap Host.events) =
      some ((hosts.foldl (Built.addHost cfg) b).between inHost' currHost') := by
  induction hosts with
  | nil => exact fun b _ inHost currHost ↦ ⟨inHost, currHost, rfl⟩
  | cons h hosts ih =>
    intro b hvalid inHost currHost
    obtain ⟨currHost', hrun⟩ := run_host cfg hvalid h inHost currHost
    obtain ⟨inHost'', currHost'', hrest⟩ := ih (b.addHost cfg h) (hvalid.addHost h) true currHost'
    refine ⟨inHost'', currHost'', ?_⟩
    rw [flatMap_cons, run_append, hrun, Option.bind_some, hrest]
    rfl

def Built.init : Built where
  heap := []
  currIface := none
  ifaces := []
  hosts := []

theorem Built.valid_init : Built.init.Valid where
  one_name _ h := absurd h not_mem_nil
  currIface_lt _ h := by cases h
  lt_of_mem _ h := absurd h not_mem_nil

/-- What is built from a document. -/
def Document.built (cfg : Config) (doc : Document) : Built :=
  doc.hosts.foldl (Built.addHost cfg) Built.init

variable (cfg) in
theorem run_document (doc : Document) : ∃ rpd, ResparseData.init.run cfg doc.events = some rpd ∧
    rpd.failure = false ∧ rpd.heap = (doc.built cfg).heap ∧ rpd.ifaces = (doc.built cfg).ifaces ∧
      rpd.hosts = (doc.built cfg).hosts := by
  have hstart : ResparseData.init.step cfg (.start "Resources" doc.attrs) =
    some (Built.init.between false none) := by
    simp [ResparseData.step, ResparseData.startElement, ResparseData.init, Built.init,
      Built.between, Built.state]
  obtain ⟨inHost, currHost, hrun⟩ := run_hosts cfg doc.hosts Built.init Built.valid_init false none
  rw [Document.events, cons_append, run_cons, hstart, Option.bind_some, run_append, hrun,
    Option.bind_some, run_cons]
  refine ⟨(doc.built cfg).state [] inHost currHost, ?_, rfl, rfl, rfl, rfl⟩
  simp [ResparseData.step, ResparseData.endElement, Built.between, Built.state, ResparseData.run,
    Document.built]

theorem hosts_addHost (h : Host) : (b.addHost cfg h).hosts =
    b.hosts ++ if ResparseData.admits cfg h.name
      then [⟨h.own, (refs b.heap.length b.currIface h.children).1⟩] else [] := by
  rw [Built.addHost]
  split
  · rfl
  · exact (append_nil _).symm

/-- The hosts have their own properties. -/
theorem hosts_sublist (hosts : List Host) : ∀ (b : Built),
    ((hosts.foldl (Built.addHost cfg) b).hosts.map GsHost.vals).Sublist
      (b.hosts.map GsHost.vals ++ hosts.map Host.own) := by
  induction hosts with
  | nil =>
    intro b
    rw [map_nil, append_nil]
    exact List.Sublist.refl _
  | cons h hosts ih =>
    intro b
    refine (ih (b.addHost cfg h)).trans ?_
    have hcons : b.hosts.map GsHost.vals ++ (h :: hosts).map Host.own =
        (b.hosts.map GsHost.vals ++ [h.own]) ++ hosts.map Host.own := by simp
    rw [hcons, hosts_addHost, map_append]
    refine List.Sublist.append (List.Sublist.append (List.Sublist.refl _) ?_) (List.Sublist.refl _)
    split
    · exact List.Sublist.refl _
    · exact nil_sublist _

/-- **A document is built faithfully just if the list of interfaces is right.** -/
theorem faithful_iff_built (doc : Document) : Faithful cfg doc ↔
    ((doc.built cfg).ifaces.filterMap fun p ↦ (doc.built cfg).heap[p]?) = doc.expected cfg := by
  obtain ⟨rpd, hrun, hfailure, hheap, hifaces, hhosts⟩ := run_document cfg doc
  have hlist : rpd.ifaceList = (doc.built cfg).ifaces.filterMap fun p ↦
    (doc.built cfg).heap[p]? := by
    rw [ResparseData.ifaceList, hheap, hifaces]
  rw [← hlist]
  constructor
  · rintro ⟨rpd', hrun', -, hlist', -⟩
    obtain rfl := Option.some.inj (hrun.symm.trans hrun')
    exact hlist'
  · intro heq
    refine ⟨rpd, hrun, hfailure, heq, ?_⟩
    rw [hhosts]
    exact hosts_sublist doc.hosts Built.init

/-! ## The list of interfaces -/

/-- The numbers of pointers that the children add. -/
theorem length_refs (children : List HostChild) : ∀ (n : Nat) (curr : Option Nat),
    (refs n curr children).1.length = (children.filterMap HostChild.interface?).length +
    (late curr.isSome children).length := by
  induction children with
  | nil => exact fun n curr ↦ rfl
  | cons child children ih =>
    intro n curr
    match child with
    | .property e hname =>
      show (curr.toList ++ (refs n curr children).1).length =
        (children.filterMap HostChild.interface?).length +
          ((if curr.isSome = true then [e] else []) ++ late curr.isSome children).length
      rw [length_append, length_append, ih]
      match curr with
      | none => simp
      | some p => simp; omega
    | .interface i =>
      show (refs (n + 1) (some n) children).1.length + 1 =
        (children.filterMap HostChild.interface?).length + 1 + (late true children).length
      rw [ih]
      simp only [Option.isSome_some]
      omega

/-- Without late properties the pointers are those of the interfaces that are allocated. -/
theorem refs_of_late_eq_nil (children : List HostChild) : ∀ (n : Nat) (curr : Option Nat),
    late curr.isSome children = [] →
      (refs n curr children).1 = range' n
      (children.filterMap HostChild.interface?).length := by
  induction children with
  | nil => exact fun n curr _ ↦ rfl
  | cons child children ih =>
    intro n curr hlate
    match child with
    | .property e hname =>
      obtain ⟨hnone, hrest⟩ := append_eq_nil_iff.mp hlate
      show curr.toList ++ (refs n curr children).1 = _
      rw [ih n curr hrest]
      match curr with
      | none => rfl
      | some p => cases hnone
    | .interface i =>
      show n :: (refs (n + 1) (some n) children).1 = _
      rw [ih (n + 1) (some n) hlate]
      rfl

theorem isSome_refs (children : List HostChild) : ∀ (n : Nat) (curr : Option Nat),
    (refs n curr children).2.isSome =
    (curr.isSome || !(children.filterMap HostChild.interface?).isEmpty) := by
  induction children with
  | nil => exact fun n curr ↦ (Bool.or_false _).symm
  | cons child children ih =>
    intro n curr
    match child with
    | .property e hname => exact ih n curr
    | .interface i =>
      show (refs (n + 1) (some n) children).2.isSome = (curr.isSome || true)
      rw [ih, Bool.or_true]
      rfl

theorem isSome_addHost (h : Host) :
    (b.addHost cfg h).currIface.isSome = (b.currIface.isSome || !h.interfaces.isEmpty) := by
  have hcurr : (b.addHost cfg h).currIface = (refs b.heap.length b.currIface h.children).2 := by
    rw [Built.addHost]
    split <;> rfl
  rw [hcurr, isSome_refs]
  rfl

/-- How many interfaces the hosts add to the list, and how many there are to be. -/
def added (cfg : Config) (seen : Bool) : List Host → Nat
  | [] => 0
  | h :: hosts =>
    (if ResparseData.admits cfg h.name then h.interfaces.length +
      (late seen h.children).length else 0) + added cfg (seen || !h.interfaces.isEmpty) hosts

def wanted (cfg : Config) (hosts : List Host) : Nat :=
  (hosts.map fun h ↦ if Admitted cfg h then h.interfaces.length else 0).sum

variable (cfg) in
theorem length_ifaces_foldl (hosts : List Host) : ∀ (b : Built),
    (hosts.foldl (Built.addHost cfg) b).ifaces.length = b.ifaces.length +
      added cfg b.currIface.isSome hosts := by
  induction hosts with
  | nil => exact fun b ↦ rfl
  | cons h hosts ih =>
    intro b
    have hifaces : (b.addHost cfg h).ifaces.length = b.ifaces.length +
        if ResparseData.admits cfg h.name then h.interfaces.length +
          (late b.currIface.isSome h.children).length else 0 := by
      rw [Built.addHost]
      split
      · show (b.ifaces ++ (refs b.heap.length b.currIface h.children).1).length = _
        rw [length_append, length_refs]
        rfl
      · rfl
    rw [foldl_cons, ih, hifaces, isSome_addHost, added]
    omega

theorem valid_foldl (hosts : List Host) : ∀ (b : Built), b.Valid →
    (hosts.foldl (Built.addHost cfg) b).Valid := by
  induction hosts with
  | nil => exact fun b hvalid ↦ hvalid
  | cons h hosts ih => exact fun b hvalid ↦ ih _ (hvalid.addHost h)

/-- Each pointer of the list gives an interface. -/
theorem length_filterMap (hvalid : b.Valid) : (b.ifaces.filterMap fun p ↦ b.heap[p]?).length =
    b.ifaces.length := by
  have hsome : (b.ifaces.filterMap fun p ↦ b.heap[p]?).length =
    (b.ifaces.filter fun p ↦ (b.heap[p]?).isSome).length := by
    rw [length_filterMap_eq_countP, countP_eq_length_filter]
  rw [hsome, filter_eq_self.mpr]
  intro p hp
  simp [hvalid.lt_of_mem p hp]

theorem length_flatMap_complete (hosts : List Host) :
    ((hosts.filter fun h ↦ Admitted cfg h).flatMap Host.complete).length = wanted cfg hosts := by
  induction hosts with
  | nil => rfl
  | cons h hosts ih =>
    have hcons : wanted cfg (h :: hosts) = (if Admitted cfg h then h.interfaces.length else 0) +
      wanted cfg hosts := rfl
    rw [hcons, ← ih]
    by_cases hadmitted : Admitted cfg h
    · rw [filter_cons_of_pos (by simpa using hadmitted), flatMap_cons, length_append,
        if_pos hadmitted, Host.complete, length_map]
    · rw [filter_cons_of_neg (by simpa using hadmitted), if_neg hadmitted, Nat.zero_add]

/-- If the local host is live, the test admits who is to be admitted. -/
theorem admits_of_admitted {h : Host}
    (hlive : cfg.useLiveHostsFile = true → cfg.hostname ∈ cfg.liveHosts)
    (hadmitted : Admitted cfg h) : ResparseData.admits cfg h.name = true := by
  rw [ResparseData.admits, Bool.and_eq_true, Bool.or_eq_true, Bool.or_eq_true, beq_iff_eq,
    contains_iff_mem]
  refine ⟨hadmitted.1, ?_⟩
  by_cases huse : cfg.useLiveHostsFile = true
  · exact .inr (hlive huse)
  · exact .inl (by rw [Bool.eq_false_of_not_eq_true huse]; rfl)

variable (cfg) in
/-- Otherwise it admits none. -/
theorem not_admits (name : String) (hlive :
    ¬ (cfg.useLiveHostsFile = true → cfg.hostname ∈ cfg.liveHosts)) :
      ¬ ResparseData.admits cfg name = true := by
  rw [ResparseData.admits, Bool.and_eq_true, Bool.or_eq_true, Bool.or_eq_true,
    contains_iff_mem]
  rintro ⟨-, hunused | hmem⟩
  · exact hlive fun huse ↦ by rw [huse] at hunused; cases hunused
  · exact hlive fun _ ↦ hmem

/-- At least as many are added as there are to be, or none. -/
theorem wanted_le_added (hlive : cfg.useLiveHostsFile = true → cfg.hostname ∈ cfg.liveHosts)
    (hosts : List Host) : ∀ seen, wanted cfg hosts ≤ added cfg seen hosts := by
  induction hosts with
  | nil => exact fun _ ↦ Nat.le_refl 0
  | cons h hosts ih =>
    intro seen
    have hcons : wanted cfg (h :: hosts) = (if Admitted cfg h then h.interfaces.length else 0) +
      wanted cfg hosts := rfl
    rw [hcons, added]
    refine Nat.add_le_add ?_ (ih _)
    split
    · rename_i hadmitted
      rw [if_pos (admits_of_admitted hlive hadmitted)]
      exact Nat.le_add_right _ _
    · exact Nat.zero_le _

theorem added_eq_zero (hlive : ¬ (cfg.useLiveHostsFile = true → cfg.hostname ∈ cfg.liveHosts))
    (hosts : List Host) : ∀ seen, added cfg seen hosts = 0 := by
  induction hosts with
  | nil => exact fun _ ↦ rfl
  | cons h hosts ih =>
    intro seen
    rw [added, if_neg (not_admits cfg h.name hlive), ih]

/-- If as many interfaces are added as there are to be, the condition is met. -/
theorem sound_of_added_eq_wanted (hosts : List Host) :
    ∀ seen, added cfg seen hosts = wanted cfg hosts → Sound cfg seen hosts := by
  induction hosts with
  | nil => exact fun _ _ ↦ trivial
  | cons h hosts ih =>
    intro seen heq
    have hcons : wanted cfg (h :: hosts) = (if Admitted cfg h then h.interfaces.length else 0) +
      wanted cfg hosts := rfl
    rw [hcons, added] at heq
    by_cases hlive : cfg.useLiveHostsFile = true → cfg.hostname ∈ cfg.liveHosts
    · have hrest := wanted_le_added hlive hosts (seen || !h.interfaces.isEmpty)
      by_cases hadmitted : Admitted cfg h
      · have hadmits := admits_of_admitted hlive hadmitted
        rw [if_pos hadmits, if_pos hadmitted] at heq
        refine ⟨fun _ ↦ length_eq_zero_iff.mp (by omega),
          fun _ ↦ iff_of_true hadmits hadmitted, ih _ (by omega)⟩
      · rw [if_neg hadmitted] at heq
        by_cases hadmits : ResparseData.admits cfg h.name = true
        · rw [if_pos hadmits] at heq
          refine ⟨fun _ ↦ length_eq_zero_iff.mp (by omega), fun hne ↦ ?_, ih _ (by omega)⟩
          exact absurd (length_eq_zero_iff.mp (by omega)) hne
        · rw [if_neg hadmits] at heq
          exact ⟨fun h' ↦ absurd h' hadmits, fun _ ↦ iff_of_false hadmits hadmitted,
            ih _ (by omega)⟩
    · have hadmits := not_admits cfg h.name hlive
      rw [if_neg hadmits, added_eq_zero hlive] at heq
      refine ⟨fun h' ↦ absurd h' hadmits, fun hne ↦ iff_of_false hadmits fun hadmitted ↦
        ?_, ih _ ?_⟩
      · rw [if_pos hadmitted] at heq
        exact absurd (length_eq_zero_iff.mp (by omega)) hne
      · rw [added_eq_zero hlive]
        omega

/-- The interfaces that are newly allocated get the name of the host. -/
theorem propagate_range' (name : String) (heap : List Properties) (new : List Properties) :
    ResparseData.propagate (heap ++ new) name (range' heap.length new.length) =
      heap ++ new.map fun vals ↦ addElement vals "host" [name] := by
  induction new generalizing heap with
  | nil => rfl
  | cons vals new ih =>
    have hmodify : (heap ++ vals :: new).modify heap.length
        (fun vals ↦ addElement vals "host" [name]) = (heap ++ [addElement vals "host" [name]]) ++
          new := by
      induction heap with
      | nil => rfl
      | cons a heap ih' => exact congrArg (a :: ·) ih'
    have hlength : heap.length + 1 = (heap ++ [addElement vals "host" [name]]).length := by simp
    rw [length_cons, range'_succ]
    show ResparseData.propagate ((heap ++ vals :: new).modify heap.length _) name _ = _
    rw [hmodify, hlength, ih]
    simp

/-- Pointers to interfaces that were allocated before give what they gave. -/
theorem filterMap_append {heap : List Properties} {ptrs : List Nat}
    (hlt : ∀ p ∈ ptrs, p < heap.length) (new : List Properties) :
    (ptrs.filterMap fun p ↦ (heap ++ new)[p]?) = ptrs.filterMap fun p ↦ heap[p]? :=
  filterMap_congr fun p hp ↦ getElem?_append_left (hlt p hp)

theorem filterMap_range' (heap new : List Properties) :
    ((range' heap.length new.length).filterMap fun p ↦ (heap ++ new)[p]?) = new := by
  induction new generalizing heap with
  | nil => rfl
  | cons vals new ih =>
    have hsplit : heap ++ vals :: new = (heap ++ [vals]) ++ new := append_cons heap vals new
    have hlength : heap.length + 1 = (heap ++ [vals]).length := by simp
    have hfirst : (heap ++ vals :: new)[heap.length]? = some vals := by simp
    rw [length_cons, range'_succ, filterMap_cons_some hfirst, hlength, hsplit, ih]

/-- The interfaces of a host are added to the list if it is to be admitted. -/
theorem filterMap_addHost (hvalid : b.Valid) {h : Host}
    (hlate : ResparseData.admits cfg h.name = true → late b.currIface.isSome h.children = [])
    (hadmits : h.interfaces ≠ [] → (ResparseData.admits cfg h.name = true ↔ Admitted cfg h)) :
    ((b.addHost cfg h).ifaces.filterMap fun p ↦ (b.addHost cfg h).heap[p]?) =
      (b.ifaces.filterMap fun p ↦ b.heap[p]?) ++ if Admitted cfg h then h.complete else [] := by
  have hcomplete : h.complete = (h.interfaces.map Interface.own).map fun vals ↦ addElement vals
    "host" [h.name] := by
    have hlower : "host".toLower = "host" := by decide +kernel
    rw [Host.complete, map_map]
    refine map_congr_left fun i _ ↦ ?_
    show i.own ++ [("host", h.name)] = i.own ++ [("host".toLower, h.name)]
    rw [hlower]
  have hwanted : (if ResparseData.admits cfg h.name = true then h.complete else []) =
      if Admitted cfg h then h.complete else [] := by
    by_cases hnone : h.interfaces = []
    · have hempty : h.complete = [] := by rw [Host.complete, hnone]; rfl
      rw [hempty, ite_self, ite_self]
    · exact if_congr (hadmits hnone) rfl rfl
  rw [← hwanted, Built.addHost]
  split
  · rename_i hyes
    have hptrs : (refs b.heap.length b.currIface h.children).1 =
        range' b.heap.length (h.interfaces.map Interface.own).length := by
      rw [length_map]
      exact refs_of_late_eq_nil h.children _ _ (hlate hyes)
    have hheap : ResparseData.propagate (b.heap ++ h.interfaces.map Interface.own) h.name
        (refs b.heap.length b.currIface h.children).1 = b.heap ++ h.complete := by
      rw [hptrs, propagate_range', hcomplete]
    have hlength : (h.interfaces.map Interface.own).length = h.complete.length := by
      rw [Host.complete, length_map, length_map]
    show ((b.ifaces ++ (refs b.heap.length b.currIface h.children).1).filterMap fun p ↦
      (ResparseData.propagate (b.heap ++ h.interfaces.map Interface.own) h.name
        (refs b.heap.length b.currIface h.children).1)[p]?) = _
    rw [hheap, hptrs, hlength, List.filterMap_append, filterMap_append hvalid.lt_of_mem,
      filterMap_range']
  · rw [append_nil]
    exact filterMap_append hvalid.lt_of_mem _

/-- **The list of interfaces, where the condition is met.** -/
theorem filterMap_foldl (hosts : List Host) : ∀ (b : Built), b.Valid →
    Sound cfg b.currIface.isSome hosts →
      ((hosts.foldl (Built.addHost cfg) b).ifaces.filterMap fun p ↦
        (hosts.foldl (Built.addHost cfg) b).heap[p]?) =
      (b.ifaces.filterMap fun p ↦ b.heap[p]?) ++ (hosts.filter fun h ↦ Admitted cfg h).flatMap
        Host.complete := by
  induction hosts with
  | nil => exact fun b _ _ ↦ (append_nil _).symm
  | cons h hosts ih =>
    intro b hvalid hsound
    obtain ⟨hlate, hadmits, hrest⟩ := hsound
    rw [foldl_cons, ih (b.addHost cfg h) (hvalid.addHost h) (by rwa [isSome_addHost]),
      filterMap_addHost hvalid hlate hadmits, append_assoc]
    congr 1
    by_cases hadmitted : Admitted cfg h
    · rw [if_pos hadmitted, filter_cons_of_pos (by simpa using hadmitted), flatMap_cons]
    · rw [if_neg hadmitted, filter_cons_of_neg (by simpa using hadmitted), nil_append]

end

/-- **The list has the interfaces of the admitted hosts, each once and with its own properties, just
if no property of an admitted host comes after an interface of the document, and the test admits the
right hosts.** -/
theorem faithful_iff (cfg : Config) (doc : Document) : Faithful cfg doc ↔
    Sound cfg false doc.hosts := by
  rw [faithful_iff_built]
  constructor
  · intro heq
    have hlength := congrArg length heq
    have hvalid : (doc.built cfg).Valid := valid_foldl doc.hosts Built.init Built.valid_init
    have hexpected : (doc.expected cfg).length = wanted cfg doc.hosts :=
      length_flatMap_complete doc.hosts
    rw [length_filterMap hvalid, hexpected] at hlength
    have hadded := length_ifaces_foldl cfg doc.hosts Built.init
    refine sound_of_added_eq_wanted doc.hosts false ?_
    show added cfg Built.init.currIface.isSome doc.hosts = _
    have hnone : Built.init.ifaces.length = 0 := rfl
    rw [Document.built] at hlength
    omega
  · exact fun hsound ↦ filterMap_foldl doc.hosts Built.init Built.valid_init hsound

def eth0 : Interface where
  attrs := [("Name", "eth0")]
  properties := []
  one_name := by decide +kernel

/-- A host with an interface and a property after it. -/
def interfaceFirst : Host where
  attrs := [("Name", "h")]
  children := [.interface eth0, .property ⟨"Memory", [("Value", "16")]⟩ (by decide)]
  one_name := by decide +kernel

/-- The property adds the interface once more. -/
theorem not_faithful_interfaceFirst : ¬ Faithful ⟨"h", false, false, []⟩
    ⟨[], [interfaceFirst]⟩ := by
  rw [faithful_iff_built]
  intro heq
  exact absurd (congrArg length heq) (by decide +kernel)

end Tigon.Ftacmp.IfaceQ
