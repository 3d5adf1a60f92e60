import Tigon.Ftacmp.IfaceQ
import Tigon.Lib.Separator

/-!
# Virtual interfaces

A table names basic interfaces, itself or through a query of the interface definitions.  Where there
are several virtual interfaces to a basic one, each HFTA process reads those of a range, under the
basic name with `X` and a number.  The properties of a virtual interface are those of the basic one,
whose name is found by scanning digits from the end.

A name that already ends in `X` and digits is taken apart too, also if it stands as it is.

* `ifaceOf_virtual` — a name that is made is taken apart into what it was made of.
* `served_iff` — **when the virtual interfaces are read once each, and looked up by their basic
names.** -/

set_option autoImplicit false

namespace Tigon.Ftacmp.VirtualIfaces

open IfaceQ List

/-! ## The interfaces that are read -/

/-- What an `int` has. -/
def toInt (i : Int) : Int := i.bmod (2 ^ 32)

def intToString (i : Int) : String := toString i

/-- The interface definitions.  A predicate is what it says of the properties of an interface. -/
structure IfqT where
  rpd : ResparseData
  ifqMap : List (String × (Properties → Bool))

namespace ResparseData

/-- The first value of a name, of the interface. -/
def firstOf (vals : Properties) (name : String) : String := (valuesOf vals name).headD ""

def getHost (vals : Properties) : String := firstOf vals "host"

def getName (vals : Properties) : String := firstOf vals "name"

def findIfaces (rpd : IfaceQ.ResparseData) (pr : Properties → Bool) : List (String × String) :=
  (rpd.ifaceList.filter pr).map fun vals ↦ (getHost vals, getName vals)

def getIfacesByName (rpd : IfaceQ.ResparseData) (host name : String) : List Properties :=
  rpd.ifaceList.filter fun vals ↦ getHost vals == host && getName vals == name

end ResparseData

/-- There are no interfaces where the name is not defined, or the resources did not parse. -/
def IfqT.eval (ifdb : IfqT) (qname : String) : List (String × String) :=
  match ifdb.ifqMap.lookup qname with
  | none => []
  | some pr => if ifdb.rpd.failure then [] else ResparseData.findIfaces ifdb.rpd pr

structure TablevarT where
  machine : String
  interface : String
  /-- The interface is the name of a query. -/
  ifq : Bool

def basicIfaces (table : TablevarT) (ifdb : IfqT) : List (String × String) :=
  if table.ifq then ifdb.eval table.interface else [(table.machine, table.interface)]

def getIfaces (table : TablevarT) (ifdb : IfqT) (nVirtualIfaces hftaParallelism hftaIdx : Nat) :
    List (String × String) :=
  if nVirtualIfaces = 1 then basicIfaces table ifdb
  else
    let stride := nVirtualIfaces / hftaParallelism
    (basicIfaces table ifdb).flatMap fun b ↦
      (range' (hftaIdx * stride) ((hftaIdx + 1) * stride - hftaIdx * stride)).map fun s : Nat ↦
        (b.1, b.2 ++ "X" ++ intToString (toInt (2 * s)))

/-! ## Looking up -/

/-- How many characters are left when the digits at the end of the first ones are passed: one more
than `pos`. -/
def scanDigits (cdat : List Char) : Nat → Nat
  | 0 => 0
  | k + 1 => if cdat[k]?.any Char.isDigit then scanDigits cdat k else k + 1

/-- The name of the interface, and that of the virtual one. -/
def ifaceOf (name : String) : String × String :=
  let cdat := name.toList
  let k := scanDigits cdat cdat.length
  if 1 < k ∧ cdat[k - 1]? = some 'X' ∧ k + 1 ≤ cdat.length then
    (String.ofList (cdat.take (k - 1)), String.ofList (cdat.drop k))
  else (name, "0")

/-- The interface of a name, which is the only one. -/
def oneOf (rpd : IfaceQ.ResparseData) (host name : String) : Except String Properties :=
  if rpd.failure then .error "interface resource parse failed."
  else
    match ResparseData.getIfacesByName rpd host name with
    | [] => .error "interface not found."
    | [vals] => .ok vals
    | _ => .error "multiple interfaces found."

def getProperty (vals : Properties) (p : String) : List String := valuesOf vals p.toLower

/-- The names, as a map has them. -/
def getProperties (vals : Properties) : List String :=
  (vals.map (·.1)).dedup.mergeSort fun a b ↦ a ≤ b

namespace IfqT

variable (ifdb : IfqT)

def getIfaceVals (host basicIfName property : String) : Except String (List String) :=
  if property = "virtual_interface_id" then .ok [(ifaceOf basicIfName).2]
  else (oneOf ifdb.rpd host (ifaceOf basicIfName).1).map fun vals ↦ getProperty vals property

def getIfaceProperties (host basicIfName : String) : Except String (List String) :=
  (oneOf ifdb.rpd host (ifaceOf basicIfName).1).map getProperties

end IfqT

/-! ## What is to be served -/

/-- The name of a virtual interface.  A single one has the basic name. -/
def virtualName (n : Nat) (basic : String) (s : Nat) : String :=
  if n = 1 then basic else basic ++ "X" ++ Nat.repr (2 * s)

/-- A name is looked up as another one, and its number is reported. -/
structure LookedUpAs (host name basic id : String) : Prop where
  vals : ∀ (ifdb : IfqT) (property : String),
    ifdb.getIfaceVals host name property =
      if property = "virtual_interface_id" then .ok [id]
      else (oneOf ifdb.rpd host basic).map fun vals ↦ getProperty vals property
  properties : ∀ ifdb : IfqT, ifdb.getIfaceProperties host name = (oneOf ifdb.rpd host basic).map
    getProperties

/-- The virtual interfaces of the basic ones. -/
def virtualIfaces (n : Nat) (basics : List (String × String)) : List (String × String) :=
  basics.flatMap fun b ↦ (range n).map fun s ↦ (b.1, virtualName n b.2 s)

/-- The processes together read each virtual interface once, and the names are looked up as they
should be. -/
structure Served (table : TablevarT) (ifdb : IfqT) (n p : Nat) : Prop where
  perm : ((range p).flatMap (getIfaces table ifdb n p)).Perm
    (virtualIfaces n (basicIfaces table ifdb))
  nodup : (basicIfaces table ifdb).Nodup → ((range p).flatMap (getIfaces table ifdb n p)).Nodup
  virtual : ∀ b ∈ basicIfaces table ifdb, ∀ s < n,
    LookedUpAs b.1 (virtualName n b.2 s) b.2 (Nat.repr (2 * s))
  basic : ∀ b ∈ basicIfaces table ifdb, LookedUpAs b.1 b.2 b.2 "0"

/-- A text, `X` and digits. -/
def EndsInId (name : String) : Prop :=
  ∃ a d : String, a ≠ "" ∧ d ≠ "" ∧ (∀ c ∈ d.toList, c.isDigit = true) ∧ name = a ++ "X" ++ d

/-- No name ends in `X` and digits; and where there are several virtual interfaces, no name is empty
and the numbers are in the range of an `int`. -/
def Plain (n : Nat) (basics : List (String × String)) : Prop :=
  ∀ b ∈ basics, ¬EndsInId b.2 ∧ (n ≠ 1 → b.2 ≠ "" ∧ n ≤ 2 ^ 30)

/-! ## Taking a name apart -/

theorem scanDigits_append (a d : List Char) (hd : ∀ c ∈ d, c.isDigit = true) :
    scanDigits (a ++ d) (a ++ d).length = scanDigits (a ++ d) a.length := by
  have hpass : ∀ k ≤ d.length, scanDigits (a ++ d) (a.length + k) = scanDigits (a ++ d)
    a.length := by
    intro k hk
    induction k with
    | zero => rfl
    | succ k ih =>
      have hget : (a ++ d)[a.length + k]? = some d[k] := by
        rw [getElem?_append_right (Nat.le_add_right _ _), Nat.add_sub_cancel_left,
          getElem?_eq_getElem (by omega)]
      have hdigit := hd _ (getElem_mem (by omega : k < d.length))
      rw [← Nat.add_assoc, scanDigits, hget, Option.any_some, if_pos hdigit]
      exact ih (by omega)
  rw [length_append]
  exact hpass _ le_rfl

/-- What is passed are digits. -/
theorem exists_scanDigits (cdat : List Char) {k : Nat} (hk : k ≤ cdat.length) :
    scanDigits cdat k ≤ k ∧ ∀ c ∈ (cdat.take k).drop (scanDigits cdat k), c.isDigit = true := by
  induction k with
  | zero => exact ⟨le_rfl, by simp⟩
  | succ k ih =>
    rw [scanDigits]
    split
    · rename_i hdigit
      obtain ⟨hle, hall⟩ := ih (by omega)
      refine ⟨by omega, fun c hc ↦ ?_⟩
      rw [take_add_one, drop_append_of_le_length (by rw [length_take]; omega)] at hc
      rcases mem_append.mp hc with hc | hc
      · exact hall c hc
      · rw [Option.mem_toList] at hc
        rw [Option.mem_def.mp hc] at hdigit
        exact hdigit
    · exact ⟨le_rfl, by simp⟩

/-- **A name that is made is taken apart into what it was made of.** -/
theorem ifaceOf_virtual {a d : String} (ha : a ≠ "") (hd : d ≠ "")
    (hdigit : ∀ c ∈ d.toList, c.isDigit = true) : ifaceOf (a ++ "X" ++ d) = (a, d) := by
  have hcdat : (a ++ "X" ++ d).toList = (a.toList ++ ['X']) ++ d.toList := by simp
  have hget : ((a.toList ++ ['X']) ++ d.toList)[a.toList.length]? = some 'X' := by simp
  have hk : scanDigits (a ++ "X" ++ d).toList (a ++ "X" ++ d).toList.length =
    a.toList.length + 1 := by
    rw [hcdat, scanDigits_append _ _ hdigit, length_append, length_singleton,
      scanDigits, hget]
    exact if_neg (by decide)
  have hapos : 0 < a.toList.length := length_pos_iff.mpr (String.toList_eq_nil_iff.not.mpr ha)
  have hdpos : 0 < d.toList.length := length_pos_iff.mpr (String.toList_eq_nil_iff.not.mpr hd)
  have hif : 1 < a.toList.length + 1 ∧ (a ++ "X" ++ d).toList[a.toList.length + 1 - 1]? = some 'X' ∧
      a.toList.length + 1 + 1 ≤ (a ++ "X" ++ d).toList.length := by
    refine ⟨by omega, ?_, ?_⟩
    · rw [Nat.add_sub_cancel, hcdat, hget]
    · rw [hcdat, length_append, length_append, length_singleton]
      omega
  unfold ifaceOf
  dsimp only
  rw [hk, if_pos hif, hcdat]
  have htake : ((a.toList ++ ['X']) ++ d.toList).take (a.toList.length + 1 - 1) = a.toList :=
    by simp
  have hdrop : ((a.toList ++ ['X']) ++ d.toList).drop (a.toList.length + 1) = d.toList := by
    rw [drop_left' (by simp)]
  rw [htake, hdrop, String.ofList_toList, String.ofList_toList]

/-- Another name is not taken apart. -/
theorem ifaceOf_of_not_endsInId {name : String} (hname : ¬EndsInId name) : ifaceOf name =
    (name, "0") := by
  unfold ifaceOf
  refine if_neg ?_
  rintro ⟨hk, hget, hlen⟩
  obtain ⟨hle, hall⟩ := exists_scanDigits name.toList le_rfl
  rw [take_length] at hall
  generalize scanDigits name.toList name.toList.length = k at hk hget hlen hle hall
  refine hname ⟨String.ofList (name.toList.take (k - 1)), String.ofList (name.toList.drop k),
    ?_, ?_, ?_, ?_⟩
  · intro h
    have := congrArg (fun t ↦ t.toList.length) h
    simp only [String.toList_ofList, length_take, String.toList_empty, length_nil] at this
    omega
  · intro h
    have := congrArg (fun t ↦ t.toList.length) h
    simp only [String.toList_ofList, length_drop, String.toList_empty, length_nil] at this
    omega
  · rw [String.toList_ofList]
    exact hall
  · refine String.toList_injective ?_
    simp only [String.toList_append, String.toList_ofList]
    have hdrop : name.toList.drop (k - 1) = "X".toList ++ name.toList.drop k := by
      rw [drop_eq_getElem?_toList_append, hget, Nat.sub_add_cancel (by omega)]
      rfl
    rw [append_assoc, ← hdrop, take_append_drop]

theorem ifaceOf_eq_self_iff (name : String) : ifaceOf name = (name, "0") ↔ ¬EndsInId name := by
  refine ⟨?_, ifaceOf_of_not_endsInId⟩
  rintro h ⟨a, d, ha, hd, hdigit, rfl⟩
  rw [ifaceOf_virtual ha hd hdigit, Prod.mk.injEq] at h
  have := congrArg String.length h.1
  simp only [String.length_append] at this
  have : "X".length = 1 := rfl
  omega

theorem isDigit_of_mem_repr {n : Nat} : ∀ c ∈ (Nat.repr n).toList, c.isDigit = true := by
  intro c hc
  rw [Nat.toList_repr] at hc
  exact Nat.isDigit_of_mem_toDigits (by decide) (by decide) hc

/-! ## What is looked up -/

/-- Resources with one interface. -/
def single (host name : String) : ResparseData :=
  { ResparseData.init with ifaces := [0], heap := [[("host", host), ("name", name)]] }

theorem oneOf_single (host name basic : String) :
    oneOf (single host name) host basic =
      if name = basic then .ok [("host", host), ("name", name)]
        else .error "interface not found." := by
  have hvals : ResparseData.getHost [("host", host), ("name", name)] = host ∧
      ResparseData.getName [("host", host), ("name", name)] = name := ⟨rfl, rfl⟩
  have hlist : (single host name).ifaceList = [[("host", host), ("name", name)]] := rfl
  unfold oneOf ResparseData.getIfacesByName
  rw [hlist, filter_cons, hvals.1, hvals.2, filter_nil, beq_self_eq_true, Bool.true_and]
  by_cases h : name = basic
  · rw [if_pos (beq_iff_eq.mpr h), if_pos h]
    rfl
  · rw [if_neg (fun hbeq ↦ h (beq_iff_eq.mp hbeq)), if_neg h]
    rfl

theorem lookedUpAs_iff (host name basic id : String) : LookedUpAs host name basic id ↔
    ifaceOf name = (basic, id) := by
  constructor
  · intro h
    have hid := h.vals ⟨ResparseData.init, []⟩ "virtual_interface_id"
    rw [IfqT.getIfaceVals, if_pos rfl, if_pos rfl, Except.ok.injEq, singleton_inj] at hid
    have hname := h.properties ⟨single host (ifaceOf name).1, []⟩
    rw [IfqT.getIfaceProperties, oneOf_single, if_pos rfl, oneOf_single] at hname
    refine Prod.ext ?_ hid
    by_contra hne
    rw [if_neg hne] at hname
    exact absurd hname (by simp [Except.map])
  · intro h
    exact ⟨fun ifdb property ↦ by rw [IfqT.getIfaceVals, h],
      fun ifdb ↦ by rw [IfqT.getIfaceProperties, h]⟩

/-! ## What is read -/

theorem toInt_of_le {s n : Nat} (hs : s < n) (hn : n ≤ 2 ^ 30) : toInt (2 * s) =
    ((2 * s : Nat) : Int) := by
  rw [toInt, Int.bmod_eq_of_le (by omega) (by omega)]
  push_cast
  rfl

theorem toInt_lt (i : Int) : toInt i < 2 ^ 31 := by
  have := Int.bmod_lt (x := i) (m := 2 ^ 32) (by omega)
  rw [toInt]
  omega

/-- The ranges of the processes are one after the other. -/
theorem flatMap_range' (stride p : Nat) :
    ((range p).flatMap fun k ↦ range' (k * stride) ((k + 1) * stride - k * stride)) =
      range (p * stride) := by
  induction p with
  | zero => simp
  | succ p ih =>
    rw [range_succ, flatMap_append, ih, flatMap_singleton, Nat.succ_mul,
      Nat.add_sub_cancel_left, range_eq_range', range_eq_range']
    simpa using range'_append_1 (s := 0) (m := p * stride) (n := stride)

/-- Lists that are made in another order. -/
theorem flatMap_comm_perm {α β γ : Type*} (as : List α) (bs : List β) (f : α → β → List γ) :
    (as.flatMap fun a ↦ bs.flatMap (f a)).Perm (bs.flatMap fun b ↦ as.flatMap fun a ↦ f a b) := by
  induction bs with
  | nil => simp
  | cons b bs ih =>
    have hcons : (as.flatMap fun a ↦ (b :: bs).flatMap (f a)) = as.flatMap fun a ↦ f a b ++
      bs.flatMap (f a) := rfl
    rw [hcons]
    exact (flatMap_append_perm as _ _).symm.trans (ih.append_left _)

theorem perm_of_le {table : TablevarT} {ifdb : IfqT} {n p : Nat} (hdvd : p ∣ n) (hp : 0 < p)
    (hn : n ≠ 1 → basicIfaces table ifdb ≠ [] → n ≤ 2 ^ 30) :
    ((range p).flatMap (getIfaces table ifdb n p)).Perm
    (virtualIfaces n (basicIfaces table ifdb)) := by
  by_cases hone : n = 1
  · subst hone
    obtain rfl : p = 1 := Nat.dvd_one.mp hdvd
    simp [getIfaces, virtualIfaces, virtualName]
  by_cases hbasics : basicIfaces table ifdb = []
  · simp [getIfaces, virtualIfaces, hone, hbasics]
  have hle := hn hone hbasics
  have hread : (range p).flatMap (getIfaces table ifdb n p) =
      (range p).flatMap fun k ↦ (basicIfaces table ifdb).flatMap fun b ↦
        (range' (k * (n / p)) ((k + 1) * (n / p) - k * (n / p))).map fun s : Nat ↦
          (b.1, b.2 ++ "X" ++ intToString (toInt (2 * s))) := by
    refine congrArg (fun f ↦ (range p).flatMap f) (funext fun k ↦ ?_)
    rw [getIfaces, if_neg hone]
  rw [hread]
  refine (flatMap_comm_perm _ _ _).trans (List.Perm.of_eq ?_)
  refine congrArg (fun f ↦ (basicIfaces table ifdb).flatMap f) (funext fun b ↦ ?_)
  rw [← map_flatMap, flatMap_range', Nat.mul_div_cancel' hdvd]
  refine map_congr_left fun s hs ↦ ?_
  rw [virtualName, if_neg hone, toInt_of_le (mem_range.mp hs) hle]
  rfl

theorem not_mem_repr (n : Nat) : 'X' ∉ (Nat.repr n).toList :=
  fun h ↦ absurd (isDigit_of_mem_repr _ h) (by decide)

theorem not_mem_intToString (i : Int) : 'X' ∉ (intToString i).toList := by
  cases i with
  | ofNat n => exact not_mem_repr n
  | negSucc n =>
    have hneg : intToString (.negSucc n) = "-" ++ Nat.repr (n + 1) := rfl
    rw [hneg, String.toList_append]
    intro h
    rcases mem_append.mp h with h | h
    · exact absurd h (by decide)
    · exact not_mem_repr _ h

theorem eq_of_intToString_eq {i : Int} {n : Nat} (h : intToString i = Nat.repr n) : i = n := by
  cases i with
  | ofNat m => exact congrArg Int.ofNat (Nat.repr_injective h)
  | negSucc m =>
    have hneg : intToString (.negSucc m) = "-" ++ Nat.repr (m + 1) := rfl
    have hmem : '-' ∈ (Nat.repr n).toList := by
      rw [← h, hneg, String.toList_append]
      exact mem_append_left _ (by decide)
    exact absurd (isDigit_of_mem_repr _ hmem) (by decide)

/-- A number that is no `int` is not read. -/
theorem le_of_perm {table : TablevarT} {ifdb : IfqT} {n p : Nat} (hone : n ≠ 1)
    (hbasics : basicIfaces table ifdb ≠ [])
    (h : ((range p).flatMap (getIfaces table ifdb n p)).Perm
      (virtualIfaces n (basicIfaces table ifdb))) :
    n ≤ 2 ^ 30 := by
  by_contra hlt
  obtain ⟨b, bs, hcons⟩ := exists_cons_of_ne_nil hbasics
  have hvirtual : (b.1, virtualName n b.2 (2 ^ 30)) ∈ virtualIfaces n (basicIfaces table ifdb) := by
    refine mem_flatMap.mpr ⟨b, hcons ▸ mem_cons_self, mem_map.mpr ⟨2 ^ 30, ?_, rfl⟩⟩
    exact mem_range.mpr (by omega)
  obtain ⟨k, -, hread⟩ := mem_flatMap.mp (h.mem_iff.mpr hvirtual)
  rw [getIfaces, if_neg hone] at hread
  obtain ⟨b', -, hread⟩ := mem_flatMap.mp hread
  obtain ⟨s, -, hname⟩ := mem_map.mp hread
  rw [Prod.mk.injEq, virtualName, if_neg hone] at hname
  have hlists := String.toList_inj.mpr hname.2
  simp only [String.toList_append, append_assoc] at hlists
  obtain ⟨-, hnumber⟩ := Separator.append_cons_inj_of_not_mem (not_mem_intToString _)
    (not_mem_repr _) hlists
  have heq := eq_of_intToString_eq (String.toList_inj.mp hnumber)
  have hlt := toInt_lt (2 * s)
  omega

/-- Names of virtual interfaces differ. -/
theorem nodup_virtualIfaces {n : Nat} {basics : List (String × String)} (hbasics : basics.Nodup) :
    (virtualIfaces n basics).Nodup := by
  have hname : ∀ {b b' : String} {s s' : Nat}, s < n → s' < n → virtualName n b s =
      virtualName n b' s' → b = b' ∧ s = s' := by
    intro b b' s s' hs hs' h
    unfold virtualName at h
    by_cases hone : n = 1
    · rw [if_pos hone, if_pos hone] at h
      exact ⟨h, by omega⟩
    · rw [if_neg hone, if_neg hone, ← String.toList_inj] at h
      simp only [String.toList_append, append_assoc] at h
      obtain ⟨hb, hnumber⟩ := Separator.append_cons_inj_of_not_mem (not_mem_repr _)
        (not_mem_repr _) h
      have := Nat.repr_injective (String.toList_inj.mp hnumber)
      exact ⟨String.toList_inj.mp hb, by omega⟩
  refine nodup_flatMap.mpr ⟨fun b _ ↦ ?_, hbasics.imp fun {b b'} hne ↦ ?_⟩
  · refine List.Nodup.map_on (fun s hs s' hs' h ↦ ?_) nodup_range
    exact (hname (mem_range.mp hs) (mem_range.mp hs') (Prod.mk.inj h).2).2
  · intro x hx hx'
    obtain ⟨s, hs, rfl⟩ := mem_map.mp hx
    obtain ⟨s', hs', h⟩ := mem_map.mp hx'
    have h' := Prod.mk.inj h
    exact hne (Prod.ext h'.1.symm (hname (mem_range.mp hs') (mem_range.mp hs)
      h'.2).1.symm)

/-- The name of a virtual interface is taken apart into what it was made of. -/
theorem ifaceOf_virtualName_iff {n : Nat} (hn : 1 ≤ n) {basic : String} (hbasic : ¬EndsInId basic) :
    (∀ s < n, ifaceOf (virtualName n basic s) = (basic, Nat.repr (2 * s))) ↔
    (n ≠ 1 → basic ≠ "") := by
  by_cases hone : n = 1
  · refine iff_of_true (fun s hs ↦ ?_) fun h ↦ absurd hone h
    obtain rfl : s = 0 := by omega
    rw [virtualName, if_pos hone, ifaceOf_of_not_endsInId hbasic]
    rfl
  constructor
  · rintro h - rfl
    have hX2 := h 1 (by omega)
    rw [virtualName, if_neg hone] at hX2
    exact absurd hX2 (by decide +kernel)
  · intro h s _
    rw [virtualName, if_neg hone]
    exact ifaceOf_virtual (h hone) Nat.repr_ne_empty isDigit_of_mem_repr

/-- **Together the processes read each virtual interface once, and its name is looked up as the
basic name with its number, just when no basic name ends in `X` and digits; and where there are
several virtual interfaces, no basic name is empty and the numbers are in the range of an
`int`.** -/
theorem served_iff (table : TablevarT) (ifdb : IfqT) {n p : Nat} (hn : 1 ≤ n) (hdvd : p ∣ n) :
    Served table ifdb n p ↔ Plain n (basicIfaces table ifdb) := by
  have hp : 0 < p := Nat.pos_of_dvd_of_pos hdvd hn
  constructor
  · intro h b hb
    have hbasic := (ifaceOf_eq_self_iff b.2).mp ((lookedUpAs_iff _ _ _ _).mp (h.basic b hb))
    refine ⟨hbasic, fun hone ↦ ⟨?_, le_of_perm hone (ne_nil_of_mem hb) h.perm⟩⟩
    exact (ifaceOf_virtualName_iff hn hbasic).mp
      (fun s hs ↦ (lookedUpAs_iff _ _ _ _).mp (h.virtual b hb s hs)) hone
  · intro h
    have hperm := perm_of_le hdvd hp fun hone hbasics ↦ by
      obtain ⟨b, bs, hcons⟩ := exists_cons_of_ne_nil hbasics
      exact ((h b (hcons ▸ mem_cons_self)).2 hone).2
    refine ⟨hperm, fun hbasics ↦ hperm.nodup_iff.mpr (nodup_virtualIfaces hbasics),
      fun b hb s hs ↦ ?_, fun b hb ↦ ?_⟩
    · exact (lookedUpAs_iff _ _ _ _).mpr
        ((ifaceOf_virtualName_iff hn (h b hb).1).mpr (fun hone ↦ ((h b hb).2 hone).1) s hs)
    · exact (lookedUpAs_iff _ _ _ _).mpr (ifaceOf_of_not_endsInId (h b hb).1)

/-- Two processes share four virtual interfaces. -/
theorem served_eth : Served ⟨"gs", "eth0", false⟩ ⟨ResparseData.init, []⟩ 4 2 := by
  refine (served_iff _ _ (by decide) (by decide)).mpr ?_
  intro b hb
  obtain rfl : b = ("gs", "eth0") := mem_singleton.mp hb
  refine ⟨?_, fun _ ↦ ⟨by decide, by decide⟩⟩
  exact (ifaceOf_eq_self_iff _).mp (by decide +kernel)

/-- A name is looked up as a part of it. -/
theorem not_served_ethX1 : ¬∀ (table : TablevarT) (ifdb : IfqT) (n p : Nat), 1 ≤ n → p ∣ n →
    Served table ifdb n p := by
  intro h
  have hserved := h ⟨"gs", "ethX1", false⟩ ⟨ResparseData.init, []⟩ 1 1 le_rfl dvd_rfl
  have hbasic := (lookedUpAs_iff _ _ _ _).mp (hserved.basic ("gs", "ethX1") mem_cons_self)
  exact absurd hbasic (by decide +kernel)

end Tigon.Ftacmp.VirtualIfaces
