import Trunk.Foundation.Chain
import Trunk.Nvram.Table

/-! # The tuples in memory

The functions of `nvram.c` as they work on memory: tuples are nodes with a pointer to the next one,
and a tuple is found, hooked in and moved to the dead ones by pointers to the cells that hold
pointers. In every heap that holds a table (`Trunk.Nvram.Holds`), the functions do what those on the
chains of the table do (`Trunk.Nvram.Holds.nvramSet`, `Trunk.Nvram.Holds.nvramUnset`), and find and
list its tuples.

An address that is no tuple's has no result. What `malloc` leaves in a pointer is never read, and is
null here. The strings are values: the one a caller passes is not part of the tuple that it is
stored in.
-/

namespace Trunk.Nvram

open CString Chain

/-- `struct nvram_tuple` in memory. -/
structure Node where
  name : CStr
  value : Option CStr
  next : Option Nat
  deriving DecidableEq

/-- The lists that a handle has pointers to. -/
inductive Row where
  | hash (i : Fin 257)
  | dead
  deriving DecidableEq

/-- The tuples that were allocated, by their addresses, and the pointers of the handle. -/
structure Heap where
  nodes : List Node
  heads : Row → Option Nat

namespace Heap

/-- `*prev`. -/
def links (s : Heap) : Cell Row Nat → Option Nat
  | .head list => s.heads list
  | .next t => (s.nodes[t]?).bind Node.next

/-- `*prev = value`. -/
def write (s : Heap) (prev : Cell Row Nat) (value : Option Nat) : Heap :=
  match prev with
  | .head list => { s with heads := Function.update s.heads list value }
  | .next t => { s with nodes := s.nodes.modify t fun node => { node with next := value } }

/-- The loop that finds the tuple of a name, and the cell that points to it. A list has fewer nodes
than there are, which bounds the rounds. -/
def find (s : Heap) (name : CStr) : Nat → Cell Row Nat → Option (Cell Row Nat × Option Nat)
  | 0, _ => none
  | fuel + 1, prev =>
      match s.links prev with
      | none => some (prev, none)
      | some t => do
          let node ← s.nodes[t]?
          if node.name = name then return (prev, some t) else find s name fuel (.next t)

/-- The tuple of a name in its bucket. -/
def findTuple (s : Heap) (name : CStr) : Option (Cell Row Nat × Option Nat) :=
  s.find name (s.nodes.length + 1) (.head (.hash (bucket name)))

/-- A new tuple, with a name and without a value. -/
def malloc (s : Heap) (name : CStr) : Heap :=
  { s with nodes := s.nodes ++ [{ name := name, value := none, next := none }] }

/-- `_nvram_realloc`. -/
def nvramRealloc (s : Heap) (t : Option Nat) (name value : CStr) : Option (Option Nat × Heap) :=
  if value.bytes.length + 1 > nvramSpace then some (none, s)
  else do
    let (t, s) := match t with
      | none => (s.nodes.length, s.malloc name)
      | some t => (t, s)
    let node ← s.nodes[t]?
    if node.value = some value then return (some t, s)
    else
      let nodes := s.nodes.modify t fun node => { node with value := some value }
      return (some t, { s with nodes := nodes })

/-- A tuple is moved to the dead ones. -/
def bury (s : Heap) (prev : Cell Row Nat) (t : Nat) : Heap :=
  let s := s.write prev (s.links (.next t))
  let s := s.write (.next t) (s.heads .dead)
  s.write (.head .dead) (some t)

/-- `nvram_get`. -/
def nvramGet (s : Heap) (name : Option CStr) : Option (Option CStr) :=
  match name with
  | none => some none
  | some name => do
      match ← s.findTuple name with
      | (_, none) => return none
      | (_, some t) => return (← s.nodes[t]?).value

/-- `nvram_set`. -/
def nvramSet (s : Heap) (name value : CStr) : Option (Int × Heap) := do
  let (prev, t) ← s.findTuple name
  match ← s.nvramRealloc t name value with
  | (none, s) => return (-12, s)
  | (some u, s) =>
      if t = some u then return (0, s)
      else
        let s := match t with
          | none => s
          | some t => s.bury prev t
        let s := s.write (.next u) (s.heads (.hash (bucket name)))
        return (0, s.write (.head (.hash (bucket name))) (some u))

/-- `nvram_unset`. -/
def nvramUnset (s : Heap) (name : Option CStr) : Option Heap :=
  match name with
  | none => some s
  | some name => do
      match ← s.findTuple name with
      | (_, none) => return s
      | (prev, some t) => return s.bury prev t

/-- The inner loop of `nvram_getall`: every tuple is put in front of the list. -/
def collect (s : Heap) : Nat → Option Nat → List (CStr × Option CStr) →
    Option (List (CStr × Option CStr))
  | _, none, l => some l
  | 0, some _, _ => none
  | fuel + 1, some t, l => do
      let node ← s.nodes[t]?
      s.collect fuel node.next ((node.name, node.value) :: l)

/-- `nvram_getall`. -/
def nvramGetall (s : Heap) : Option (List (CStr × Option CStr)) :=
  (List.finRange 257).foldlM (fun l i => s.collect s.nodes.length (s.heads (.hash i)) l) []

/-- The heap of a handle that was cleared. -/
def empty : Heap where
  nodes := []
  heads _ := none

/-- The tuple at an address. -/
def tuple (s : Heap) (t : Nat) : Option Tuple := do
  let node ← s.nodes[t]?
  return { name := node.name, value := ← node.value }

end Heap

variable {h : Handle} {name value : CStr} {chain : List Tuple} {t u : Tuple}

namespace Heap

variable {s : Heap} {prev : Cell Row Nat} {next : Option Nat} {a : Nat}

/-- A cell that is in memory. -/
def Valid (s : Heap) : Cell Row Nat → Prop
  | .head _ => True
  | .next t => t < s.nodes.length

@[simp] theorem length_write (s : Heap) (prev : Cell Row Nat) (next : Option Nat) :
    (s.write prev next).nodes.length = s.nodes.length := by
  cases prev with
  | head list => rfl
  | next t => exact List.length_modify _ _ _

/-- A write changes the cell. -/
theorem links_write (valid : s.Valid prev) :
    (s.write prev next).links = Function.update s.links prev next := by
  funext cell
  cases prev with
  | head list =>
      cases cell with
      | head other =>
          by_cases same : other = list
          · rw [same, Function.update_self]
            exact Function.update_self list next s.heads
          · have differ : (Cell.head other : Cell Row Nat) ≠ .head list := by
              intro eq
              cases eq
              exact same rfl
            rw [Function.update_of_ne differ]
            exact Function.update_of_ne same next s.heads
      | next t =>
          rw [Function.update_of_ne (by nofun)]
          rfl
  | next t =>
      have inside : t < s.nodes.length := valid
      cases cell with
      | head other =>
          rw [Function.update_of_ne (by nofun)]
          rfl
      | next other =>
          by_cases same : other = t
          · subst same
            rw [Function.update_self]
            simp only [write, links, List.getElem?_modify, List.getElem?_eq_getElem inside, ↓reduceIte]
            rfl
          · have differ : (Cell.next other : Cell Row Nat) ≠ .next t := by
              intro eq
              cases eq
              exact same rfl
            rw [Function.update_of_ne differ]
            simp only [write, links, List.getElem?_modify, Ne.symm same, ↓reduceIte]
            cases s.nodes[other]? <;> rfl

@[simp] theorem tuple_write (s : Heap) (prev : Cell Row Nat) (next : Option Nat) :
    (s.write prev next).tuple = s.tuple := by
  funext a
  cases prev with
  | head list => rfl
  | next t =>
      simp only [tuple, write, List.getElem?_modify]
      cases s.nodes[a]? with
      | none => rfl
      | some node =>
          by_cases same : t = a
          · simp only [same, ↓reduceIte]
            rfl
          · simp only [same, ↓reduceIte]
            rfl

theorem lt_of_tuple (there : s.tuple a = some t) : a < s.nodes.length := by
  by_contra outside
  rw [tuple, List.getElem?_eq_none (by omega)] at there
  cases there

/-- The node of a tuple. -/
theorem node_of_tuple (there : s.tuple a = some t) :
    ∃ next, s.nodes[a]? = some { name := t.name, value := some t.value, next := next } := by
  unfold tuple at there
  cases node : s.nodes[a]? with
  | none =>
      rw [node] at there
      cases there
  | some found =>
      obtain ⟨name, value, next⟩ := found
      rw [node] at there
      cases value with
      | none => cases there
      | some value =>
          obtain rfl := Option.some.inj there
          exact ⟨next, rfl⟩

end Heap

/-- A list of tuples of a handle. -/
def Handle.row (h : Handle) : Row → List Tuple
  | .hash i => h.nvramHash i
  | .dead => h.nvramDead

/-- The heap has the tuples of a handle in its lists, each at an address of its own. -/
structure Holds (s : Heap) (h : Handle) (rows : Row → List Nat) : Prop where
  leads : ∀ row, Leads s.links (.head row) (rows row)
  tuples : ∀ row, (rows row).map s.tuple = (h.row row).map some
  unique : ∀ row, (rows row).Nodup
  apart : ∀ row other, ∀ t ∈ rows row, t ∈ rows other → row = other

/-- The first tuple with a name, in a list and in memory. -/
structure Found (s : Heap) (name : CStr) (nodes : List Nat) (chain : List Tuple)
    (before : List Nat) (t : Nat) (after : List Nat) (front : List Tuple) (u : Tuple)
    (back : List Tuple) : Prop where
  nodes : nodes = before ++ t :: after
  chain : chain = front ++ u :: back
  before : before.map s.tuple = front.map some
  here : s.tuple t = some u
  after : after.map s.tuple = back.map some
  named : u.name = name
  first : ∀ v ∈ front, v.name ≠ name

theorem Found.lookup {s : Heap} {name : CStr} {nodes before after : List Nat} {t : Nat}
    {chain front back : List Tuple} {u : Tuple}
    (found : Found s name nodes chain before t after front u back) :
    Nvram.lookup name chain = some u := by
  obtain ⟨-, rfl, -, -, -, named, first⟩ := found
  induction front with
  | nil => rw [List.nil_append, lookup_cons, if_pos named]
  | cons v front ih =>
      rw [List.forall_mem_cons] at first
      rw [List.cons_append, lookup_cons, if_neg first.1]
      exact ih first.2

section Find

variable {s : Heap} {nodes : List Nat} {prev : Cell Row Nat} {fuel : Nat}

/-- What the loop finds in a list. -/
theorem find_spec (leads : Leads s.links prev nodes) (tuples : nodes.map s.tuple = chain.map some)
    (enough : nodes.length < fuel) (name : CStr) :
    (lookup name chain = none ∧ s.find name fuel prev = some (behind prev nodes, none)) ∨
    ∃ before t after front u back, Found s name nodes chain before t after front u back ∧
      s.find name fuel prev = some (behind prev before, some t) := by
  induction nodes generalizing prev chain fuel with
  | nil =>
      obtain rfl := List.map_eq_nil_iff.mp tuples.symm
      obtain ⟨fuel, rfl⟩ : ∃ less, fuel = less + 1 := ⟨fuel - 1, by omega⟩
      left
      rw [Heap.find, leads]
      exact ⟨rfl, rfl⟩
  | cons t nodes ih =>
      obtain ⟨u, chain, rfl⟩ : ∃ u rest, chain = u :: rest := by
        cases chain with
        | nil => cases tuples
        | cons u rest => exact ⟨u, rest, rfl⟩
      rw [List.length_cons] at enough
      obtain ⟨fuel, rfl⟩ : ∃ less, fuel = less + 1 := ⟨fuel - 1, by omega⟩
      obtain ⟨here, later⟩ := List.cons.inj tuples
      obtain ⟨next, node⟩ := Heap.node_of_tuple here
      have round : s.find name (fuel + 1) prev =
          if u.name = name then some (prev, some t) else s.find name fuel (.next t) := by
        rw [Heap.find, leads.1]
        dsimp only
        rw [node]
        rfl
      by_cases named : u.name = name
      · rw [if_pos named] at round
        exact .inr ⟨[], t, nodes, [], u, chain,
          ⟨rfl, rfl, rfl, here, later, named, List.forall_mem_nil _⟩, round⟩
      · rw [if_neg named] at round
        have less : nodes.length < fuel := by omega
        rcases ih leads.2 later less with ⟨absent, run⟩ |
          ⟨before, t', after, front, u', back, found, run⟩
        · left
          rw [lookup_cons, if_neg named, round]
          exact ⟨absent, run⟩
        · right
          obtain ⟨nodes', chain', before', here', after', named', first⟩ := found
          refine ⟨t :: before, t', after, u :: front, u', back, ⟨?_, ?_, ?_, here', after', named', ?_⟩,
            round.trans run⟩
          · rw [nodes']
            rfl
          · rw [chain']
            rfl
          · rw [List.map_cons, List.map_cons, before', here]
          · exact List.forall_mem_cons.mpr ⟨named, first⟩

end Find

namespace Holds

variable {s : Heap} {rows : Row → List Nat}

theorem lt (holds : Holds s h rows) {row : Row} {a : Nat} (member : a ∈ rows row) :
    a < s.nodes.length := by
  have there : s.tuple a ∈ (h.row row).map some := by
    rw [← holds.tuples row]
    exact List.mem_map_of_mem member
  obtain ⟨t, -, same⟩ := List.mem_map.mp there
  exact Heap.lt_of_tuple same.symm

theorem length_le (holds : Holds s h rows) (row : Row) : (rows row).length ≤ s.nodes.length := by
  have inside : rows row ⊆ List.range s.nodes.length := fun a member =>
    List.mem_range.mpr (holds.lt member)
  have fewer := (List.subperm_of_subset (holds.unique row) inside).length_le
  rwa [List.length_range] at fewer

/-- What is found in the bucket of a name. -/
theorem findTuple (holds : Holds s h rows) (name : CStr) :
    (lookup name (h.nvramHash (bucket name)) = none ∧
      ∃ prev, s.findTuple name = some (prev, none)) ∨
    ∃ before t after front u back,
      Found s name (rows (.hash (bucket name))) (h.nvramHash (bucket name)) before t after front u
        back ∧
      s.findTuple name = some (behind (.head (.hash (bucket name))) before, some t) := by
  have few := holds.length_le (.hash (bucket name))
  have spec := find_spec (holds.leads (.hash (bucket name))) (holds.tuples (.hash (bucket name)))
    (Nat.lt_succ_of_le few) name
  rcases spec with ⟨absent, run⟩ | found
  · exact .inl ⟨absent, _, run⟩
  · exact .inr found

/-- `nvram_get` finds the value of the table. -/
theorem nvramGet (holds : Holds s h rows) (name : CStr) :
    s.nvramGet (some name) = some (Nvram.nvramGet h name) := by
  unfold Heap.nvramGet Nvram.nvramGet
  dsimp only
  rcases holds.findTuple name with ⟨absent, prev, run⟩ | ⟨before, t, after, front, u, back, found, run⟩
  · rw [run, absent]
    rfl
  · obtain ⟨next, node⟩ := Heap.node_of_tuple found.here
    rw [run, found.lookup]
    change (do return (← s.nodes[t]?).value) = _
    rw [node]
    rfl

end Holds

theorem Found.replace {s : Heap} {nodes before after : List Nat} {a : Nat}
    {chain front back : List Tuple}
    (found : Found s name nodes chain before a after front u back) (t : Tuple) :
    Nvram.replace name t chain = front ++ t :: back := by
  obtain ⟨-, rfl, -, -, -, named, first⟩ := found
  induction front with
  | nil => rw [List.nil_append, Nvram.replace, if_pos named, List.nil_append]
  | cons v front ih =>
      rw [List.forall_mem_cons] at first
      rw [List.cons_append, Nvram.replace, if_neg first.1, ih first.2, List.cons_append]

theorem Found.eraseP {s : Heap} {nodes before after : List Nat} {a : Nat}
    {chain front back : List Tuple}
    (found : Found s name nodes chain before a after front u back) :
    chain.eraseP (fun t => t.name = name) = front ++ back := by
  obtain ⟨-, rfl, -, -, -, named, first⟩ := found
  rw [List.eraseP_append_right]
  · rw [List.eraseP_cons_of_pos (by simpa using named)]
  · intro v member
    simpa using first v member

namespace Heap

variable {s : Heap} {a : Nat}

/-- What a change of the value of a tuple leaves. -/
structure Valued (s : Heap) (a : Nat) (t : Tuple) (s' : Heap) : Prop where
  links : s'.links = s.links
  heads : s'.heads = s.heads
  inside : a < s'.nodes.length
  tuple : ∀ b, s'.tuple b = if b = a then some t else s.tuple b

theorem valued_modify {node : Node} (there : s.nodes[a]? = some node) (value : CStr) :
    Valued s a { name := node.name, value := value }
      { s with nodes := s.nodes.modify a fun node => { node with value := some value } } where
  links := by
    funext cell
    cases cell with
    | head list => rfl
    | next b =>
        simp only [links, List.getElem?_modify]
        cases s.nodes[b]? with
        | none => rfl
        | some other =>
            by_cases same : a = b
            · simp only [same, ↓reduceIte]
              rfl
            · simp only [same, ↓reduceIte]
              rfl
  heads := rfl
  inside := by
    rw [List.length_modify]
    exact (List.getElem?_eq_some_iff.mp there).1
  tuple b := by
    by_cases same : b = a
    · subst same
      simp only [tuple, List.getElem?_modify, there, ↓reduceIte]
      rfl
    · simp only [tuple, List.getElem?_modify, Ne.symm same, same, ↓reduceIte]
      cases s.nodes[b]? <;> rfl

theorem links_malloc (s : Heap) (name : CStr) : (s.malloc name).links = s.links := by
  funext cell
  cases cell with
  | head list => rfl
  | next b =>
      unfold links malloc
      dsimp only
      rcases Nat.lt_trichotomy b s.nodes.length with less | same | more
      · rw [List.getElem?_append_left less]
      · rw [same, List.getElem?_concat_length, List.getElem?_eq_none (Nat.le_refl _)]
        rfl
      · rw [List.getElem?_append_right more.le, List.getElem?_eq_none more.le,
          List.getElem?_eq_none]
        rw [List.length_singleton]
        omega

theorem tuple_malloc (s : Heap) (name : CStr) : (s.malloc name).tuple = s.tuple := by
  funext b
  unfold tuple malloc
  dsimp only
  rcases Nat.lt_trichotomy b s.nodes.length with less | same | more
  · rw [List.getElem?_append_left less]
  · rw [same, List.getElem?_concat_length, List.getElem?_eq_none (Nat.le_refl _)]
    rfl
  · rw [List.getElem?_append_right more.le, List.getElem?_eq_none more.le, List.getElem?_eq_none]
    rw [List.length_singleton]
    omega

/-- A tuple that is there gets the value. -/
theorem nvramRealloc_some {u : Tuple} (there : s.tuple a = some u) (name : CStr) {value : CStr}
    (fits : ¬ value.bytes.length + 1 > nvramSpace) :
    ∃ s', s.nvramRealloc (some a) name value = some (some a, s') ∧
      Valued s a { name := u.name, value := value } s' := by
  obtain ⟨next, node⟩ := node_of_tuple there
  have run : s.nvramRealloc (some a) name value =
      if some u.value = some value then some (some a, s)
      else some (some a,
        { s with nodes := s.nodes.modify a fun node => { node with value := some value } }) := by
    unfold nvramRealloc
    rw [if_neg fits]
    dsimp only
    rw [node]
    rfl
  by_cases same : some u.value = some value
  · rw [if_pos same] at run
    refine ⟨s, run, rfl, rfl, lt_of_tuple there, fun b => ?_⟩
    split
    · rename_i eq
      rw [eq, there, ← Option.some.inj same]
    · rfl
  · rw [if_neg same] at run
    exact ⟨_, run, valued_modify node value⟩

/-- A new tuple gets the name and the value. -/
theorem nvramRealloc_none (s : Heap) (name : CStr) {value : CStr}
    (fits : ¬ value.bytes.length + 1 > nvramSpace) :
    ∃ s', s.nvramRealloc none name value = some (some s.nodes.length, s') ∧
      Valued s s.nodes.length { name := name, value := value } s' := by
  have node : (s.malloc name).nodes[s.nodes.length]? =
      some { name := name, value := none, next := none } := List.getElem?_concat_length
  obtain ⟨links, heads, inside, tuple⟩ := valued_modify node value
  refine ⟨_, ?_, links.trans (links_malloc s name), heads, inside, ?_⟩
  · unfold nvramRealloc
    rw [if_neg fits]
    dsimp only
    rw [node]
    rfl
  · intro b
    rw [tuple, tuple_malloc]

end Heap

theorem row_hook (h : Handle) (name : CStr) (chain : List Tuple) :
    (h.hook name chain).row = Function.update h.row (.hash (bucket name)) chain := by
  funext row
  cases row with
  | dead => rw [Function.update_of_ne (by nofun)]; rfl
  | hash i =>
      by_cases same : i = bucket name
      · rw [same, Function.update_self]
        exact Function.update_self (bucket name) chain h.nvramHash
      · rw [Function.update_of_ne (by rintro ⟨⟩; exact same rfl)]
        exact Function.update_of_ne same chain h.nvramHash

theorem Heap.Valued.map {s s' : Heap} {a : Nat} (valued : s.Valued a t s') {nodes : List Nat}
    (absent : a ∉ nodes) : nodes.map s'.tuple = nodes.map s.tuple := by
  apply List.map_congr_left
  intro b member
  rw [valued.tuple, if_neg]
  rintro rfl
  exact absent member

namespace Holds

variable {s s' : Heap} {rows : Row → List Nat} {before after : List Nat} {a : Nat}
  {front back : List Tuple}

/-- A tuple of a bucket gets the value. -/
theorem valued (holds : Holds s h rows)
    (found : Found s name (rows (.hash (bucket name))) (h.nvramHash (bucket name)) before a after
      front u back)
    (valued : s.Valued a { name := name, value := value } s') :
    Holds s' (h.hook name (stored name value (h.nvramHash (bucket name)))) rows := by
  have store : stored name value (h.nvramHash (bucket name)) =
      front ++ { name := name, value := value } :: back := by
    unfold stored
    rw [found.lookup]
    exact found.replace _
  have unique := holds.unique (.hash (bucket name))
  rw [found.nodes, List.nodup_middle, List.nodup_cons, List.mem_append, not_or] at unique
  refine ⟨fun row => by rw [valued.links]; exact holds.leads row, fun row => ?_, holds.unique,
    holds.apart⟩
  rw [row_hook]
  by_cases same : row = .hash (bucket name)
  · rw [same, Function.update_self, found.nodes, store, List.map_append, List.map_cons,
      List.map_append, List.map_cons, valued.map unique.1.1, valued.map unique.1.2, found.before,
      found.after, valued.tuple, if_pos rfl]
  · have absent : a ∉ rows row := by
      intro member
      have here : a ∈ rows (.hash (bucket name)) := by
        rw [found.nodes]
        exact List.mem_append_right _ List.mem_cons_self
      exact same (holds.apart _ _ a member here)
    rw [Function.update_of_ne same, valued.map absent, holds.tuples]

/-- A new tuple is put in front of a bucket. -/
theorem hooked (holds : Holds s h rows) (absent : lookup name (h.nvramHash (bucket name)) = none)
    (valued : s.Valued s.nodes.length { name := name, value := value } s') :
    Holds ((s'.write (.next s.nodes.length) (s'.heads (.hash (bucket name)))).write
        (.head (.hash (bucket name))) (some s.nodes.length))
      (h.hook name (stored name value (h.nvramHash (bucket name))))
      (Function.update rows (.hash (bucket name))
        (s.nodes.length :: rows (.hash (bucket name)))) := by
  have fresh : ∀ row, s.nodes.length ∉ rows row := fun row member =>
    Nat.lt_irrefl _ (holds.lt member)
  have links : ((s'.write (.next s.nodes.length) (s'.heads (.hash (bucket name)))).write
      (.head (.hash (bucket name))) (some s.nodes.length)).links =
      Function.update (Function.update s.links (.next s.nodes.length)
        (s.links (.head (.hash (bucket name))))) (.head (.hash (bucket name)))
        (some s.nodes.length) := by
    rw [Heap.links_write (by exact trivial), Heap.links_write (by exact valued.inside),
      valued.links, valued.heads]
    rfl
  have store : stored name value (h.nvramHash (bucket name)) =
      { name := name, value := value } :: h.nvramHash (bucket name) := by
    unfold stored
    rw [absent]
  constructor
  · intro row
    rw [links]
    by_cases same : row = .hash (bucket name)
    · rw [same, Function.update_self]
      exact (holds.leads _).push (fresh _) (by nofun) (apart_head _ _)
    · rw [Function.update_of_ne same]
      refine ((holds.leads row).update (by nofun) (apart_next (fresh row)) _).update ?_
        (apart_head _ _) _
      rintro ⟨⟩
      exact same rfl
  · intro row
    rw [Heap.tuple_write, Heap.tuple_write, row_hook]
    by_cases same : row = .hash (bucket name)
    · rw [same, Function.update_self, Function.update_self, store, List.map_cons, List.map_cons,
        valued.map (fresh _), holds.tuples, valued.tuple, if_pos rfl]
      rfl
    · rw [Function.update_of_ne same, Function.update_of_ne same, valued.map (fresh row),
        holds.tuples]
  · intro row
    by_cases same : row = .hash (bucket name)
    · rw [same, Function.update_self]
      exact List.nodup_cons.mpr ⟨fresh _, holds.unique _⟩
    · rw [Function.update_of_ne same]
      exact holds.unique row
  · intro row other b member member'
    by_cases same : row = .hash (bucket name)
    · by_cases same' : other = .hash (bucket name)
      · rw [same, same']
      · rw [same, Function.update_self] at member
        rw [Function.update_of_ne same'] at member'
        rcases List.mem_cons.mp member with rfl | member
        · exact absurd member' (fresh other)
        · rw [same]
          exact holds.apart _ _ b member member'
    · rw [Function.update_of_ne same] at member
      by_cases same' : other = .hash (bucket name)
      · rw [same', Function.update_self] at member'
        rcases List.mem_cons.mp member' with rfl | member'
        · exact absurd member (fresh row)
        · rw [same']
          exact holds.apart _ _ b member member'
      · rw [Function.update_of_ne same'] at member'
        exact holds.apart _ _ b member member'

end Holds

namespace Holds

variable {s : Heap} {rows : Row → List Nat} {before after : List Nat} {a : Nat}
  {front back : List Tuple}

/-- A tuple of a bucket is moved to the dead ones. -/
theorem buried (holds : Holds s h rows)
    (found : Found s name (rows (.hash (bucket name))) (h.nvramHash (bucket name)) before a after
      front u back)
    {prev : Cell Row Nat} (place : prev = behind (.head (.hash (bucket name))) before) :
    Holds (s.bury prev a) (Nvram.nvramUnset h name)
      (Function.update (Function.update rows (.hash (bucket name)) (before ++ after)) .dead
        (a :: rows .dead)) := by
  have nodes := found.nodes
  have unique := holds.unique (.hash (bucket name))
  have leads := holds.leads (.hash (bucket name))
  rw [nodes] at unique leads
  have rest := List.nodup_cons.mp (List.nodup_middle.mp unique)
  have inRow : ∀ b ∈ before ++ a :: after, b ∈ rows (.hash (bucket name)) := fun b member =>
    nodes ▸ member
  have member : a ∈ rows (.hash (bucket name)) :=
    inRow a (List.mem_append_right _ List.mem_cons_self)
  have elsewhere : ∀ row, row ≠ .hash (bucket name) → ∀ b ∈ before ++ a :: after, b ∉ rows row :=
    fun row other b here there => other (holds.apart _ _ b there (inRow b here))
  -- the cell that points to the tuple is in no other list
  have cases := behind_eq (.head (.hash (bucket name)) : Cell Row Nat) before
  rw [← place] at cases
  have valid : s.Valid prev := by
    rcases cases with same | ⟨b, here, same⟩
    · rw [same]
      trivial
    · rw [same]
      exact holds.lt (inRow b (List.mem_append_left _ here))
  have apart : ∀ row, row ≠ .hash (bucket name) →
      prev ≠ .head row ∧ Apart prev (rows row) := by
    intro row other
    rcases cases with same | ⟨b, here, same⟩
    · rw [same]
      refine ⟨?_, apart_head _ _⟩
      rintro ⟨⟩
      exact other rfl
    · rw [same]
      exact ⟨by nofun, apart_next (elsewhere row other b (List.mem_append_left _ here))⟩
  have headDead : (s.write prev (s.links (.next a))).heads .dead =
      (s.write prev (s.links (.next a))).links (.head .dead) := rfl
  have links : (s.bury prev a).links = Function.update (Function.update
      (Function.update s.links prev (s.links (.next a))) (.next a)
        (Function.update s.links prev (s.links (.next a)) (.head .dead)))
      (.head .dead) (some a) := by
    unfold Heap.bury
    dsimp only
    rw [Heap.links_write (by exact trivial), Heap.links_write, headDead, Heap.links_write valid]
    rw [Heap.Valid, Heap.length_write]
    exact holds.lt member
  have tuple : (s.bury prev a).tuple = s.tuple := by
    unfold Heap.bury
    dsimp only
    rw [Heap.tuple_write, Heap.tuple_write, Heap.tuple_write]
  have table : (Nvram.nvramUnset h name).row = Function.update
      (Function.update h.row (.hash (bucket name)) (front ++ back)) .dead (u :: h.nvramDead) := by
    have unset : Nvram.nvramUnset h name =
        { h.hook name (front ++ back) with nvramDead := u :: h.nvramDead } := by
      unfold Nvram.nvramUnset
      dsimp only
      rw [found.lookup]
      dsimp only
      rw [found.eraseP]
    rw [unset, ← row_hook]
    funext row
    cases row with
    | dead => rw [Function.update_self]; rfl
    | hash i => rw [Function.update_of_ne (by nofun)]; rfl
  constructor
  · intro row
    rw [links]
    by_cases dead : row = .dead
    · have differ : row ≠ .hash (bucket name) := by
        rw [dead]
        nofun
      rw [dead, Function.update_self]
      rw [dead] at differ
      exact ((holds.leads .dead).update (apart .dead differ).1 (apart .dead differ).2 _).push
        (elsewhere .dead differ a (List.mem_append_right _ List.mem_cons_self)) (by nofun)
        (apart_head _ _)
    · rw [Function.update_of_ne dead]
      have other : (.head .dead : Cell Row Nat) ≠ .head row := by
        rintro ⟨⟩
        exact dead rfl
      by_cases same : row = .hash (bucket name)
      · rw [same] at other ⊢
        rw [Function.update_self]
        rw [place]
        exact ((leads.unlink unique (apart_head _ _)).update (by nofun) (apart_next rest.1) _).update
          other (apart_head _ _) _
      · rw [Function.update_of_ne same]
        exact (((holds.leads row).update (apart row same).1 (apart row same).2 _).update (by nofun)
          (apart_next (elsewhere row same a (List.mem_append_right _ List.mem_cons_self))) _).update
          other (apart_head _ _) _
  · intro row
    rw [tuple, table]
    by_cases dead : row = .dead
    · rw [dead, Function.update_self, Function.update_self, List.map_cons, List.map_cons, found.here,
        holds.tuples]
      rfl
    · rw [Function.update_of_ne dead, Function.update_of_ne dead]
      by_cases same : row = .hash (bucket name)
      · rw [same, Function.update_self, Function.update_self, List.map_append, List.map_append,
          found.before, found.after]
      · rw [Function.update_of_ne same, Function.update_of_ne same, holds.tuples]
  · intro row
    by_cases dead : row = .dead
    · rw [dead, Function.update_self]
      refine List.nodup_cons.mpr ⟨elsewhere .dead (by nofun) a ?_, holds.unique .dead⟩
      exact List.mem_append_right _ List.mem_cons_self
    · rw [Function.update_of_ne dead]
      by_cases same : row = .hash (bucket name)
      · rw [same, Function.update_self]
        exact rest.2
      · rw [Function.update_of_ne same]
        exact holds.unique row
  · have moved : ∀ row b, b ∈ Function.update (Function.update rows (.hash (bucket name))
        (before ++ after)) .dead (a :: rows .dead) row →
        b = a ∧ row = .dead ∨ b ≠ a ∧ b ∈ rows row := by
      intro row b here
      by_cases dead : row = .dead
      · rw [dead, Function.update_self] at here
        rcases List.mem_cons.mp here with same | old
        · exact .inl ⟨same, dead⟩
        · right
          rw [dead]
          refine ⟨?_, old⟩
          rintro rfl
          exact elsewhere .dead (by nofun) b (List.mem_append_right _ List.mem_cons_self) old
      · rw [Function.update_of_ne dead] at here
        right
        by_cases same : row = .hash (bucket name)
        · rw [same, Function.update_self] at here
          rw [same]
          refine ⟨?_, inRow b ?_⟩
          · rintro rfl
            exact rest.1 here
          · rcases List.mem_append.mp here with here | here
            · exact List.mem_append_left _ here
            · exact List.mem_append_right _ (List.mem_cons_of_mem _ here)
        · rw [Function.update_of_ne same] at here
          refine ⟨?_, here⟩
          rintro rfl
          exact elsewhere row same b (List.mem_append_right _ List.mem_cons_self) here
    intro row other b here there
    rcases moved row b here with ⟨same, dead⟩ | ⟨differ, old⟩
    · rcases moved other b there with ⟨-, dead'⟩ | ⟨differ, -⟩
      · rw [dead, dead']
      · exact absurd same differ
    · rcases moved other b there with ⟨same, -⟩ | ⟨-, old'⟩
      · exact absurd same differ
      · exact holds.apart row other b old old'

end Holds

/-- What `nvram_getall` lists of a tuple. -/
def Tuple.listed (t : Tuple) : CStr × Option CStr := (t.name, some t.value)

/-- The inner loop of `nvram_getall` puts the tuples of a list in front. -/
theorem collect_eq {s : Heap} {nodes : List Nat} {cell : Cell Row Nat} {fuel : Nat}
    (leads : Leads s.links cell nodes) (tuples : nodes.map s.tuple = chain.map some)
    (enough : nodes.length ≤ fuel) (l : List (CStr × Option CStr)) :
    s.collect fuel (s.links cell) l = some ((chain.map Tuple.listed).reverse ++ l) := by
  induction nodes generalizing cell chain fuel l with
  | nil =>
      obtain rfl := List.map_eq_nil_iff.mp tuples.symm
      rw [leads, Heap.collect]
      rfl
  | cons t nodes ih =>
      obtain ⟨u, chain, rfl⟩ : ∃ u rest, chain = u :: rest := by
        cases chain with
        | nil => cases tuples
        | cons u rest => exact ⟨u, rest, rfl⟩
      rw [List.length_cons] at enough
      obtain ⟨fuel, rfl⟩ : ∃ less, fuel = less + 1 := ⟨fuel - 1, by omega⟩
      obtain ⟨here, later⟩ := List.cons.inj tuples
      obtain ⟨next, node⟩ := Heap.node_of_tuple here
      have link : s.links (.next t) = next := by
        rw [Heap.links, node]
        rfl
      have less : nodes.length ≤ fuel := by omega
      have rest := ih leads.2 later less (u.listed :: l)
      rw [link] at rest
      rw [leads.1, Heap.collect, node, List.map_cons, List.reverse_cons, List.append_assoc,
        List.singleton_append]
      exact rest

namespace Holds

variable {s : Heap} {rows : Row → List Nat}

/-- The heap of a handle that was cleared holds the empty table. -/
theorem empty : Holds Heap.empty (nvramFree h) (fun _ => []) where
  leads row := rfl
  tuples row := by cases row <;> rfl
  unique row := List.nodup_nil
  apart row other t member := absurd member List.not_mem_nil

/-- A value that is too long changes nothing. -/
theorem nvramSet_refused (holds : Holds s h rows) (name : CStr)
    (big : value.bytes.length + 1 > nvramSpace) : s.nvramSet name value = some (-12, s) := by
  rcases holds.findTuple name with ⟨-, prev, run⟩ | ⟨before, t, after, front, u, back, -, run⟩
  · unfold Heap.nvramSet
    rw [run]
    change (s.nvramRealloc none name value >>= _) = _
    rw [Heap.nvramRealloc, if_pos big]
    rfl
  · unfold Heap.nvramSet
    rw [run]
    change (s.nvramRealloc (some t) name value >>= _) = _
    rw [Heap.nvramRealloc, if_pos big]
    rfl

/-- `nvram_set` does what it does to the table. -/
theorem nvramSet (holds : Holds s h rows) (name value : CStr) :
    ∃ s' rows', s.nvramSet name value = some ((Nvram.nvramSet h name value).1, s') ∧
      Holds s' (Nvram.nvramSet h name value).2 rows' := by
  rw [nvramSet_eq]
  by_cases big : value.bytes.length + 1 > nvramSpace
  · rw [if_pos big]
    exact ⟨s, rows, holds.nvramSet_refused name big, holds⟩
  · rw [if_neg big]
    rcases holds.findTuple name with ⟨absent, prev, run⟩ |
      ⟨before, a, after, front, u, back, found, run⟩
    · obtain ⟨s', alloc, valued⟩ := Heap.nvramRealloc_none s name big
      refine ⟨_, _, ?_, holds.hooked absent valued⟩
      unfold Heap.nvramSet
      rw [run]
      change (s.nvramRealloc none name value >>= _) = _
      rw [alloc]
      rfl
    · obtain ⟨s', alloc, valued⟩ := Heap.nvramRealloc_some found.here name big
      rw [found.named] at valued
      refine ⟨s', rows, ?_, holds.valued found valued⟩
      unfold Heap.nvramSet
      rw [run]
      change (s.nvramRealloc (some a) name value >>= _) = _
      rw [alloc]
      change (if some a = some a then _ else _) = _
      rw [if_pos rfl]
      rfl

/-- `nvram_unset` does what it does to the table. -/
theorem nvramUnset (holds : Holds s h rows) (name : CStr) :
    ∃ s' rows', s.nvramUnset (some name) = some s' ∧
      Holds s' (Nvram.nvramUnset h name) rows' := by
  rcases holds.findTuple name with ⟨absent, prev, run⟩ |
    ⟨before, a, after, front, u, back, found, run⟩
  · refine ⟨s, rows, ?_, ?_⟩
    · unfold Heap.nvramUnset
      dsimp only
      rw [run]
      rfl
    · unfold Nvram.nvramUnset
      dsimp only
      rw [absent]
      exact holds
  · refine ⟨_, _, ?_, holds.buried found rfl⟩
    unfold Heap.nvramUnset
    dsimp only
    rw [run]
    rfl

/-- `nvram_getall` lists the tuples of the table. -/
theorem nvramGetall (holds : Holds s h rows) :
    s.nvramGetall = some (h.tuples.map Tuple.listed).reverse := by
  have rounds : ∀ slots : List (Fin 257), ∀ l,
      slots.foldlM (fun l i => s.collect s.nodes.length (s.heads (.hash i)) l) l =
        some (((slots.flatMap h.nvramHash).map Tuple.listed).reverse ++ l) := by
    intro slots
    induction slots with
    | nil => exact fun l => rfl
    | cons i slots ih =>
        intro l
        have inner := collect_eq (holds.leads (.hash i)) (holds.tuples (.hash i))
          (holds.length_le (.hash i)) l
        rw [List.foldlM_cons]
        change (s.collect s.nodes.length (s.links (.head (.hash i))) l >>= _) = _
        rw [inner, List.flatMap_cons, List.map_append, List.reverse_append, List.append_assoc]
        exact ih _
  unfold Heap.nvramGetall Handle.tuples
  rw [rounds, List.append_nil]

end Holds

end Trunk.Nvram
