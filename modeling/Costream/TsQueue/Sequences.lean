import Costream.Linked
import Costream.TsQueue.Containers

/-!
# What the containers of `TsQueue.h` stand for

A container stands for the sequence of its elements.  `Sequences` is what all containers stand
for, with the tag of every element, and its functions are the operations on
sequences.

* `Rep s a` says that the links, the ends and the counts of all containers describe their
  sequences.  An element that is in no container counts as a list of its own, so that
  nothing has to be said of free elements.
* `Rep.join` and `Rep.divide` are the two things that can happen to the links: a sequence goes
  behind another one, and a part of a sequence goes to another place.
-/

namespace Costream.TsQueue

open Costream.Lists

variable {T : Type}

/-! ## Sequences -/

inductive Container where
  | queue (q : Nat)
  | list (i : Nat)
  /-- The list that a function returns. -/
  | returned
deriving DecidableEq

structure Sequences (T : Type) where
  contents : Container → List T
  /-- The tag of an element. -/
  check : T → Option Nat

namespace Sequences

def initial : Sequences T := ⟨fun _ => [], fun _ => none⟩

variable (a : Sequences T)

def put (c : Container) (xs : List T) : Sequences T :=
  { a with contents := Function.update a.contents c xs }

def tag [DecidableEq T] (x : T) (q : Option Nat) : Sequences T :=
  { a with check := Function.update a.check x q }

/-- The sequence of `c'` goes behind that of `c`. -/
def join (c c' : Container) : Sequences T :=
  (a.put c (a.contents c ++ a.contents c')).put c' []

/-- The sequence of `c` is divided. -/
def divide (c c' : Container) (xs ys : List T) : Sequences T := (a.put c xs).put c' ys

@[simp] theorem contents_put (c : Container) (xs : List T) : (a.put c xs).contents c = xs :=
  Function.update_self ..

theorem contents_put_of_ne {c c' : Container} (h : c' ≠ c) (xs : List T) :
    (a.put c xs).contents c' = a.contents c' :=
  Function.update_of_ne h _ _

theorem put_self (c : Container) : a.put c (a.contents c) = a := by
  unfold put
  rw [Function.update_eq_self]

theorem put_put (c : Container) (xs ys : List T) : (a.put c xs).put c ys = a.put c ys := by
  unfold put
  rw [Function.update_idem]

theorem join_nil {c c' : Container} (h : a.contents c' = []) : a.join c c' = a := by
  unfold join
  rw [h, List.append_nil, put_self, ← h, put_self]

/-- All of a sequence goes to an empty place. -/
theorem divide_all {c c' : Container} (hne : c' ≠ c) (hempty : a.contents c' = []) :
    a.divide c c' [] (a.contents c) = a.join c' c := by
  unfold divide join put
  rw [hempty, List.nil_append, Function.update_comm hne]

theorem put_comm {c c' : Container} (h : c ≠ c') (xs ys : List T) :
    (a.put c xs).put c' ys = (a.put c' ys).put c xs := by
  unfold put
  rw [Function.update_comm h]

/-- What has been returned is assigned to a list. -/
theorem divide_returned {c : Container} {i : Nat} {xs ys : List T} (hne : c ≠ .returned)
    (hempty : a.contents .returned = []) :
    ((a.divide c .returned xs ys).put (.list i) []).join (.list i) .returned =
      a.divide c (.list i) xs ys := by
  have hreturned : a.put .returned [] = a := by
    rw [← hempty, put_self]
  unfold join divide
  rw [contents_put, contents_put_of_ne _ (by simp), contents_put, List.nil_append, put_put,
    put_comm _ (by simp), put_put, put_comm _ hne, hreturned]

theorem returned_join {c c' : Container} (hc : .returned ≠ c) (hc' : .returned ≠ c') :
    (a.join c c').contents .returned = a.contents .returned := by
  unfold join
  rw [contents_put_of_ne _ hc', contents_put_of_ne _ hc]

theorem returned_divide {c c' : Container} (hc : .returned ≠ c) (hc' : .returned ≠ c')
    (xs ys : List T) : (a.divide c c' xs ys).contents .returned = a.contents .returned := by
  unfold divide
  rw [contents_put_of_ne _ hc', contents_put_of_ne _ hc]

theorem divide_self {c c' : Container} {xs ys : List T} (h : a.contents c = xs)
    (h' : a.contents c' = ys) : a.divide c c' xs ys = a := by
  unfold divide
  rw [← h, put_self, ← h', put_self]

variable [DecidableEq T]

def push (q : Nat) (x : T) : Sequences T :=
  (a.put (.queue q) (a.contents (.queue q) ++ [x])).tag x (some q)

def pop (q : Nat) : Sequences T × Option (Hook T) :=
  match a.contents (.queue q) with
  | [] => (a, none)
  | x :: xs => ((a.put (.queue q) xs).tag x none, some (.element x))

/-- The element, if there is one, gets the tag of the queue. -/
def look (q : Nat) (x : Option T) : Sequences T × Option (Hook T) :=
  match x with
  | some x => (a.tag x (some q), some (.element x))
  | none => (a, none)

theorem returned_look (q : Nat) (x : Option T) :
    (a.look q x).1.contents .returned = a.contents .returned := by
  cases x with
  | none => rfl
  | some x => rfl

/-- A checked `erase` leaves an element alone that has another tag. -/
def erase (q : Nat) (x : T) (check : Bool) : Sequences T × Bool :=
  if check = true ∧ a.check x ≠ some q then
    (a, false)
  else
    ((a.put (.queue q) ((a.contents (.queue q)).erase x)).tag x none, true)

/-- The operations on sequences, and what they return. -/
def apply : Op T → Sequences T × Result T
  | .push q x => (a.push q x, .size ((a.contents (.queue q)).length + 1))
  | .pushList q i => (a.join (.queue q) (.list i), .done)
  | .pop q => ((a.pop q).1, .pointer (a.pop q).2)
  | .popFront q n i =>
    let xs := a.contents (.queue q)
    (a.divide (.queue q) (.list i) (xs.drop n) (xs.take n), .done)
  | .popBack q n i =>
    let xs := a.contents (.queue q)
    (a.divide (.queue q) (.list i) (xs.take (xs.length - n)) (xs.drop (xs.length - n)), .done)
  | .popAll q i => (a.divide (.queue q) (.list i) [] (a.contents (.queue q)), .done)
  | .erase q x check => ((a.erase q x check).1, .flag (a.erase q x check).2)
  | .front q =>
    let out := (a.contents (.queue q)).head?
    ((a.look q out).1, .pointer (a.look q out).2)
  | .next q x =>
    let out := Lists.next (a.contents (.queue q)) x
    ((a.look q out).1, .pointer (a.look q out).2)
  | .append i j => (a.join (.list i) (.list j), .done)
  | .cut i n j =>
    let xs := a.contents (.list i)
    (a.divide (.list i) (.list j) (xs.drop n) (xs.take n), .done)
  | .move j i => ((a.put (.list i) []).join (.list i) (.list j), .done)
  | .clear i => (a.put (.list i) [], .done)
  | .eraseIterator i x =>
    let xs := a.contents (.list i)
    (a.put (.list i) (xs.erase x), .pointer ((Lists.next xs x).map .element))
  | .traverse i keep =>
    let xs := a.contents (.list i)
    (a.put (.list i) (xs.filter (keep <| .element ·)), .visited (xs.map .element))

/-- An element is pushed that is in no container, and one is erased that is in the container; a
list is not put behind itself. -/
def Legal : Op T → Prop
  | .push _ x => Absent a.contents x
  | .popFront _ n _ => 1 ≤ n
  | .popBack _ n _ => 1 ≤ n
  | .erase q x _ => x ∈ a.contents (.queue q)
  | .next q x => x ∈ a.contents (.queue q)
  | .append i j => i ≠ j
  | .eraseIterator i x => x ∈ a.contents (.list i)
  | _ => True

def exec : Sequences T → List (Op T) → Sequences T × List (Result T)
  | a, [] => (a, [])
  | a, op :: ops =>
    let (b, results) := exec (a.apply op).1 ops
    (b, (a.apply op).2 :: results)

/-- Every operation is legal where it is done. -/
def AllLegal : Sequences T → List (Op T) → Prop
  | _, [] => True
  | a, op :: ops => a.Legal op ∧ AllLegal (a.apply op).1 ops

end Sequences

/-! ## Representation -/

/-- The hooks of a container. -/
def hooks (c : Container) (xs : List T) : List (Hook T) :=
  match c with
  | .queue q => .sentinel q :: xs.map .element
  | .list _ => xs.map .element
  | .returned => xs.map .element

def SList.of (xs : List T) : SList T :=
  ⟨xs.head?.map .element, xs.getLast?.map .element, xs.length⟩

def TSQueue.of (q : Nat) (xs : List T) : TSQueue T :=
  ⟨.sentinel q, (xs.getLast?.map .element).getD (.sentinel q), xs.length⟩

/-- Where a hook is: in a container, or free. -/
inductive Place (T : Type) where
  | held (c : Container)
  | free (x : T)
deriving DecidableEq

open Classical in
/-- All hooks there are; a free element is a list of its own. -/
noncomputable def family (l : Container → List T) : Place T → List (Hook T)
  | .held c => hooks c (l c)
  | .free x => if Absent l x then [.element x] else []

/-- The links, the ends, the counts and the tags are those of the sequences. -/
structure Rep (s : State T) (a : Sequences T) : Prop where
  strung : Strung s.next s.prev (family a.contents)
  queues : ∀ q, s.queues q = .of q (a.contents (.queue q))
  lists : ∀ i, s.lists i = .of (a.contents (.list i))
  check : ∀ x, s.check (.element x) = a.check x

variable {s t : State T} {a : Sequences T} {l : Container → List T} {c c' : Container}
  {x : T} {xs ys zs : List T} {q i : Nat}

theorem hooks_append (c : Container) (xs ys : List T) :
    hooks c (xs ++ ys) = hooks c xs ++ ys.map .element := by
  cases c <;> simp [hooks]

@[simp] theorem mem_hooks : Hook.element x ∈ hooks c xs ↔ x ∈ xs := by
  cases c <;> simp [hooks]

/-- No container is a queue but a `TSQueue`. -/
def Container.Plain (c : Container) : Prop := ∀ q, c ≠ .queue q

theorem hooks_plain (h : c.Plain) (xs : List T) : hooks c xs = xs.map .element := by
  cases c with
  | queue q => exact absurd rfl (h q)
  | list i => rfl
  | returned => rfl

theorem getLast_hooks_queue (q : Nat) (xs : List T) :
    (hooks (.queue q) xs).getLast? = some (TSQueue.of q xs).tail := by
  show (Hook.sentinel q :: xs.map .element).getLast? = some ((xs.getLast?.map .element).getD _)
  rw [List.getLast?_cons, List.getLast?_map]

theorem nodup_of_hooks (h : (hooks c xs).Nodup) : xs.Nodup := by
  have hmap : (xs.map Hook.element).Nodup := by
    cases c with
    | queue q => exact (List.nodup_cons.1 h).2
    | list i => exact h
    | returned => exact h
  exact hmap.of_map Hook.element

/-! ## Families of hooks -/

theorem apart_of_family (h : Apart (family l)) : Apart l where
  nodup c := nodup_of_hooks (h.nodup (.held c))
  apart c c' x hx hx' := by
    have heq := h.apart (.held c) (.held c') (.element x) (mem_hooks.2 hx) (mem_hooks.2 hx')
    cases heq
    rfl

theorem absent_update (c : Container) (xs : List T) (x : T) :
    Absent (Function.update l c xs) x ↔ x ∉ xs ∧ ∀ d, d ≠ c → x ∉ l d := by
  constructor
  · intro h
    refine ⟨?_, fun d hd => ?_⟩
    · have hc := h c
      rwa [Function.update_self] at hc
    · have hc := h d
      rwa [Function.update_of_ne hd] at hc
  · intro h d
    by_cases hd : d = c
    · rw [hd, Function.update_self]
      exact h.1
    · rw [Function.update_of_ne hd]
      exact h.2 d hd

theorem absent_update_iff (h : x ∈ xs ↔ x ∈ l c) :
    Absent (Function.update l c xs) x ↔ Absent l x := by
  rw [absent_update, h]
  constructor
  · intro hx d
    by_cases hd : d = c
    · exact hd ▸ hx.1
    · exact hx.2 d hd
  · exact fun hx => ⟨hx c, fun d _ => hx d⟩

theorem family_free_absent (h : Absent l x) : family l (.free x) = [.element x] := by
  rw [family, if_pos h]

theorem family_free_held (h : x ∈ l c) : family l (.free x) = [] := by
  rw [family, if_neg fun habs => habs c h]

theorem family_free_congr {l' : Container → List T} (h : Absent l x ↔ Absent l' x) :
    family l (.free x) = family l' (.free x) := by
  by_cases habs : Absent l x
  · rw [family_free_absent habs, family_free_absent (h.1 habs)]
  · rw [family, if_neg habs, family, if_neg fun habs' => habs (h.2 habs')]

namespace Rep

theorem apart (h : Rep s a) : Apart a.contents := apart_of_family h.strung.apart

/-- The links of an element. -/
theorem links (h : Rep s a) (hc : a.contents c = xs ++ x :: ys) :
    s.next (.element x) = ys.head?.map .element ∧
      s.prev (.element x) = (hooks c xs).getLast? := by
  have hlinked := h.strung.linked (.held c)
  rw [family, hc, hooks_append, List.map_cons] at hlinked
  obtain ⟨hnext, hprev⟩ := hlinked _ _ _ rfl
  rw [List.head?_map] at hnext
  exact ⟨hnext, hprev⟩

theorem links_sentinel (h : Rep s a) (q : Nat) :
    s.next (.sentinel q) = (a.contents (.queue q)).head?.map .element := by
  have hlinked := h.strung.linked (.held (.queue q))
  have hnext := hlinked.next_of_cons
  rw [List.head?_map] at hnext
  exact hnext

theorem links_free (h : Rep s a) (habs : Absent a.contents x) :
    s.next (.element x) = none ∧ s.prev (.element x) = none := by
  have hlinked := h.strung.linked (.free x)
  rw [family_free_absent habs] at hlinked
  exact Linked.singleton.1 hlinked

end Rep

/-! ## Families after an operation -/

variable [DecidableEq T]

theorem family_exchange (hne : c ≠ c') (hperm : (xs ++ ys).Perm (l c ++ l c')) :
    family (Function.update (Function.update l c xs) c' ys) =
      Function.update (Function.update (family l) (.held c) (hooks c xs)) (.held c')
        (hooks c' ys) := by
  funext r
  cases r with
  | held d =>
    by_cases hd' : d = c'
    · rw [hd', Function.update_self, family, Function.update_self]
    · have hp' : Place.held d ≠ (.held c' : Place T) := fun heq => hd' (Place.held.inj heq)
      rw [Function.update_of_ne hp', family, Function.update_of_ne hd']
      by_cases hd : d = c
      · rw [hd, Function.update_self, Function.update_self]
      · have hp : Place.held d ≠ (.held c : Place T) := fun heq => hd (Place.held.inj heq)
        rw [Function.update_of_ne hd, Function.update_of_ne hp, family]
  | free x =>
    rw [Function.update_of_ne (by simp), Function.update_of_ne (by simp)]
    exact family_free_congr (absent_exchange hne hperm)

/-- An element comes into a container or leaves it. -/
theorem family_update (x : T) (hmem : ∀ y, y ≠ x → (y ∈ xs ↔ y ∈ l c)) :
    family (Function.update l c xs) =
      Function.update (Function.update (family l) (.held c) (hooks c xs)) (.free x)
        (family (Function.update l c xs) (.free x)) := by
  funext r
  cases r with
  | held d =>
    rw [Function.update_of_ne (by simp)]
    by_cases hd : d = c
    · rw [hd, Function.update_self, family, Function.update_self]
    · have hp : Place.held d ≠ (.held c : Place T) := fun heq => hd (Place.held.inj heq)
      rw [Function.update_of_ne hp, family, family, Function.update_of_ne hd]
  | free y =>
    by_cases hy : y = x
    · rw [hy, Function.update_self]
    · have hp : Place.free y ≠ Place.free x := fun heq => hy (Place.free.inj heq)
      rw [Function.update_of_ne hp, Function.update_of_ne (by simp)]
      exact family_free_congr (absent_update_iff (hmem y hy))

/-! ## What happens to the links -/

namespace Rep

/-- The sequence of `c'` goes behind that of `c`. -/
theorem join (h : Rep s a) (hne : c ≠ c') (hc' : c'.Plain) :
    Strung
      (write s.next (hooks c (a.contents c)).getLast? (hooks c' (a.contents c')).head?)
      (write s.prev (hooks c' (a.contents c')).head? (hooks c (a.contents c)).getLast?)
      (family (a.join c c').contents) := by
  have hp : Place.held c ≠ (.held c' : Place T) := fun heq => hne (Place.held.inj heq)
  have hjoin := h.strung.join hp rfl rfl
  have hperm : (a.contents c ++ a.contents c' ++ []).Perm (a.contents c ++ a.contents c') := by
    rw [List.append_nil]
  have hfamily := family_exchange hne hperm
  show Strung _ _ (family (Function.update (Function.update a.contents c _) c' _))
  rw [hfamily, hooks_append, ← hooks_plain hc', hooks_plain hc' []]
  exact hjoin

/-- The sequence of `c'` goes to the empty `c`; the links stay as they are. -/
theorem rename (h : Rep s a) (hne : c ≠ c') (hc : c.Plain) (hc' : c'.Plain)
    (hempty : a.contents c = []) : Strung s.next s.prev (family (a.join c c').contents) := by
  have hp : Place.held c ≠ (.held c' : Place T) := fun heq => hne (Place.held.inj heq)
  have hrename := h.strung.rename hp (by rw [family, hempty, hooks_plain hc]; rfl)
  have hperm : (a.contents c ++ a.contents c' ++ []).Perm (a.contents c ++ a.contents c') := by
    rw [List.append_nil]
  have hfamily := family_exchange hne hperm
  show Strung _ _ (family (Function.update (Function.update a.contents c _) c' _))
  rw [hfamily, hempty, List.nil_append, hooks_plain hc, ← hooks_plain hc', hooks_plain hc' []]
  exact hrename

/-- A part of the sequence of `c` goes to the empty `c'`. -/
theorem divide (h : Rep s a) (hne : c ≠ c') (hc' : c'.Plain)
    (hc : a.contents c = xs ++ ys ++ zs) (hempty : a.contents c' = []) :
    Strung
      (write (write s.next (hooks c xs).getLast? (zs.head?.map .element))
        (ys.getLast?.map .element) none)
      (write (write s.prev (zs.head?.map .element) (hooks c xs).getLast?)
        (ys.head?.map .element) none)
      (family (a.divide c c' (xs ++ zs) ys).contents) := by
  have hp : Place.held c ≠ (.held c' : Place T) := fun heq => hne (Place.held.inj heq)
  have hsplit : family a.contents (.held c) =
      hooks c xs ++ ys.map .element ++ zs.map .element := by
    rw [family, hc, hooks_append, hooks_append]
  have hnone : family a.contents (.held c') = [] := by
    rw [family, hempty, hooks_plain hc']
    rfl
  have htake := h.strung.takeOut hp hsplit hnone rfl rfl
  have hperm : (xs ++ zs ++ ys).Perm (a.contents c ++ a.contents c') := by
    rw [hc, hempty, List.append_nil, List.append_assoc, List.append_assoc]
    exact List.perm_append_comm.append_left xs
  show Strung _ _ (family (Function.update (Function.update a.contents c _) c' _))
  rw [family_exchange hne hperm, hooks_append, hooks_plain hc']
  simpa only [List.head?_map, List.getLast?_map] using htake

/-- A free element goes behind the sequence of `c`. -/
theorem insert (h : Rep s a) (habs : Absent a.contents x) :
    Strung (write s.next (hooks c (a.contents c)).getLast? (some (.element x)))
      (write s.prev (some (.element x)) (hooks c (a.contents c)).getLast?)
      (family (a.put c (a.contents c ++ [x])).contents) := by
  have hp : Place.held c ≠ (.free x : Place T) := by simp
  have hfree := family_free_absent habs
  have hjoin := h.strung.join hp rfl rfl
  have hheld : x ∈ Function.update a.contents c (a.contents c ++ [x]) c := by simp
  have hmem : ∀ y, y ≠ x → (y ∈ a.contents c ++ [x] ↔ y ∈ a.contents c) := by
    intro y hy
    simp [hy]
  rw [hfree] at hjoin
  show Strung _ _ (family (Function.update a.contents c _))
  rw [family_update x hmem, family_free_held hheld, hooks_append]
  exact hjoin

/-- An element of the sequence of `c` becomes free. -/
theorem remove (h : Rep s a) (hc : a.contents c = xs ++ x :: zs) :
    Strung
      (write (write s.next (hooks c xs).getLast? (zs.head?.map .element)) (some (.element x)) none)
      (write (write s.prev (zs.head?.map .element) (hooks c xs).getLast?) (some (.element x)) none)
      (family (a.put c (xs ++ zs)).contents) := by
  have hp : Place.held c ≠ (.free x : Place T) := by simp
  have hx : x ∈ a.contents c := by simp [hc]
  have hsplit : family a.contents (.held c) =
      hooks c xs ++ [.element x] ++ zs.map .element := by
    rw [family, hc, hooks_append]
    simp
  have htake := h.strung.takeOut hp hsplit (family_free_held hx) rfl rfl
  have hnd := h.apart.nodup c
  rw [hc] at hnd
  have hnot : x ∉ xs ++ zs := (List.nodup_cons.1 (List.nodup_middle.1 hnd)).1
  have habs : Absent (Function.update a.contents c (xs ++ zs)) x :=
    (absent_update c _ x).2 ⟨hnot, fun d hd hmem => hd (h.apart.apart d c x hmem hx)⟩
  have hmem : ∀ y, y ≠ x → (y ∈ xs ++ zs ↔ y ∈ a.contents c) := by
    intro y hy
    simp [hc, hy]
  show Strung _ _ (family (Function.update a.contents c _))
  rw [family_update x hmem, family_free_absent habs, hooks_append]
  simpa only [List.head?_map, List.getLast?_singleton, List.head?_cons] using htake

end Rep

end Costream.TsQueue
