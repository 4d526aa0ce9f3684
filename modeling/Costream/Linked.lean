import Costream.Lists

/-!
# Intrusive lists that end in null

The elements of an intrusive list know their neighbours, and the ends of the list
know that there is none.

* `Linked next prev l` says that the links along `l` describe `l`.
* `Strung next prev f` is a family of such lists that share no element.  An element that
  is in no list can be kept in the family as a list of its own.
* `Strung.join` puts one list behind another one, and `Strung.takeOut` takes a part out of
  a list.  Each says what is written to the links forward and to the links back, in terms of
  `write`, which writes to the link of an element if there is that element.
-/

namespace Costream

open Costream.Lists

variable {ι α : Type*} {next prev next' prev' : α → Option α} {l xs ys zs : List α} {a : α}

/-- Every element points to its neighbours. -/
def Linked (next prev : α → Option α) (l : List α) : Prop :=
  ∀ xs a ys, l = xs ++ a :: ys → next a = ys.head? ∧ prev a = xs.getLast?

namespace Linked

theorem nil : Linked next prev [] := by
  intro xs a ys h
  simp at h

theorem singleton : Linked next prev [a] ↔ next a = none ∧ prev a = none := by
  constructor
  · intro h
    exact h [] a [] rfl
  · intro h xs b ys heq
    cases xs with
    | nil =>
      rw [List.nil_append, List.cons.injEq] at heq
      rw [← heq.1, ← heq.2]
      exact h
    | cons c xs => simp at heq

/-- The links of other elements do not matter. -/
theorem frame (h : Linked next prev l) (hnext : ∀ a ∈ l, next' a = next a)
    (hprev : ∀ a ∈ l, prev' a = prev a) : Linked next' prev' l := by
  intro xs a ys heq
  have hmem : a ∈ l := by
    rw [heq]
    simp
  rw [hnext a hmem, hprev a hmem]
  exact h xs a ys heq

theorem next_of_cons (h : Linked next prev (a :: ys)) : next a = ys.head? := (h [] a ys rfl).1

theorem prev_head (h : Linked next prev l) (ha : l.head? = some a) : prev a = none := by
  cases l with
  | nil => simp at ha
  | cons b l =>
    rw [List.head?_cons, Option.some.injEq] at ha
    rw [← ha]
    exact (h [] b l rfl).2

theorem next_last (h : Linked next prev l) (ha : l.getLast? = some a) : next a = none := by
  have heq : l = l.dropLast ++ [a] := (List.dropLast_append_getLast? a ha).symm
  exact (h l.dropLast a [] heq).1

theorem last_of_nodup (hnd : (xs ++ a :: ys).Nodup) (h : (xs ++ a :: ys).getLast? = some a) :
    ys = [] := by
  cases ys with
  | nil => rfl
  | cons b ys =>
    have hmem : a ∈ b :: ys := by
      rw [List.getLast?_append_cons, List.getLast?_cons_cons] at h
      exact List.mem_of_getLast? h
    exact absurd hmem (List.nodup_cons.1 (List.nodup_append.1 hnd).2.1).1

theorem head_of_nodup (hnd : (xs ++ a :: ys).Nodup) (h : (xs ++ a :: ys).head? = some a) :
    xs = [] := by
  cases xs with
  | nil => rfl
  | cons b xs =>
    rw [List.cons_append, List.head?_cons, Option.some.injEq] at h
    have hnot := (List.nodup_cons.1 hnd).1
    rw [h] at hnot
    exact absurd (by simp) hnot

/-- An element of two lists in a row is in the first one or in the second one. -/
theorem append_split {us vs : List α} (h : xs ++ ys = us ++ a :: vs) :
    (∃ ws, xs = us ++ a :: ws ∧ vs = ws ++ ys) ∨ ∃ ws, us = xs ++ ws ∧ ys = ws ++ a :: vs := by
  rcases List.append_eq_append_iff.1 h with ⟨ws, hus, hys⟩ | ⟨ws, hxs, hvs⟩
  · exact .inr ⟨ws, hus, hys⟩
  · cases ws with
    | nil =>
      rw [List.append_nil] at hxs
      exact .inr ⟨[], by rw [hxs, List.append_nil], hvs.symm⟩
    | cons b ws =>
      rw [List.cons_append, List.cons.injEq] at hvs
      exact .inl ⟨ws, by rw [hvs.1, hxs], hvs.2⟩

variable [DecidableEq α]

/-- What is left when `ys` has been taken out. -/
theorem outer (h : Linked next prev (xs ++ ys ++ zs)) (hnd : (xs ++ ys ++ zs).Nodup)
    (hnext : ∀ a, next' a = if ys.getLast? = some a then none
      else if xs.getLast? = some a then zs.head? else next a)
    (hprev : ∀ a, prev' a = if ys.head? = some a then none
      else if zs.head? = some a then xs.getLast? else prev a) :
    Linked next' prev' (xs ++ zs) := by
  obtain ⟨hxy, hzs, hdisj⟩ := List.nodup_append.1 hnd
  obtain ⟨hxs, hys, hdisj'⟩ := List.nodup_append.1 hxy
  have hlast : ∀ {a}, a ∉ ys → ¬ ys.getLast? = some a := fun hno ha => hno (List.mem_of_getLast? ha)
  have hhead : ∀ {a}, a ∉ ys → ¬ ys.head? = some a := fun hno ha => hno (List.mem_of_head? ha)
  intro us a vs heq
  rw [hnext, hprev]
  rcases append_split heq with ⟨ws, hxs', hzs'⟩ | ⟨ws, hus, hzs'⟩
  · -- the element is in front of the part that goes
    have hmem : a ∈ xs := by simp [hxs']
    have hno : a ∉ ys := fun ha => hdisj' a hmem a ha rfl
    have hno' : ¬ zs.head? = some a := fun ha =>
      hdisj a (List.mem_append_left _ hmem) a (List.mem_of_head? ha) rfl
    obtain ⟨hn, hp⟩ := h us a (ws ++ ys ++ zs) (by simp [hxs'])
    rw [if_neg (hlast hno), if_neg (hhead hno), if_neg hno']
    refine ⟨?_, hp⟩
    rw [hzs']
    split
    · rename_i ha
      rw [hxs'] at ha hxs
      rw [last_of_nodup hxs ha, List.nil_append]
    · rename_i ha
      cases ws with
      | nil => exact absurd (by simp [hxs']) ha
      | cons b ws => rw [hn]; rfl
  · -- the element is behind the part that goes
    have hmem : a ∈ zs := by simp [hzs']
    have hno : a ∉ ys := fun ha => hdisj a (List.mem_append_right _ ha) a hmem rfl
    have hno' : ¬ xs.getLast? = some a := fun ha =>
      hdisj a (List.mem_append_left _ (List.mem_of_getLast? ha)) a hmem rfl
    obtain ⟨hn, hp⟩ := h (xs ++ ys ++ ws) a vs (by simp [hzs'])
    rw [if_neg (hlast hno), if_neg (hhead hno), if_neg hno']
    refine ⟨hn, ?_⟩
    rw [hus]
    split
    · rename_i ha
      rw [hzs'] at ha hzs
      rw [head_of_nodup hzs ha, List.append_nil]
    · rename_i ha
      cases ws with
      | nil => exact absurd (by simp [hzs']) ha
      | cons b ws => rw [hp, List.getLast?_append_cons, List.getLast?_append_cons]

/-- The part that has been taken out. -/
theorem inner (h : Linked next prev (xs ++ ys ++ zs)) (hnd : (xs ++ ys ++ zs).Nodup)
    (hnext : ∀ a, next' a = if ys.getLast? = some a then none
      else if xs.getLast? = some a then zs.head? else next a)
    (hprev : ∀ a, prev' a = if ys.head? = some a then none
      else if zs.head? = some a then xs.getLast? else prev a) :
    Linked next' prev' ys := by
  obtain ⟨hxy, -, hdisj⟩ := List.nodup_append.1 hnd
  obtain ⟨-, hys, hdisj'⟩ := List.nodup_append.1 hxy
  intro us a vs heq
  have hmem : a ∈ ys := by simp [heq]
  have hno : ¬ xs.getLast? = some a := fun ha =>
    hdisj' a (List.mem_of_getLast? ha) a hmem rfl
  have hno' : ¬ zs.head? = some a := fun ha =>
    hdisj a (List.mem_append_right _ hmem) a (List.mem_of_head? ha) rfl
  obtain ⟨hn, hp⟩ := h (xs ++ us) a (vs ++ zs) (by simp [heq])
  rw [hnext, hprev, if_neg hno, if_neg hno', heq]
  rw [heq] at hys
  constructor
  · split
    · rename_i ha
      rw [last_of_nodup hys ha]
      rfl
    · rename_i ha
      cases vs with
      | nil => exact absurd (by simp) ha
      | cons b vs => exact hn
  · split
    · rename_i ha
      rw [head_of_nodup hys ha]
      rfl
    · rename_i ha
      cases us with
      | nil => exact absurd (by simp) ha
      | cons b us => rw [hp, List.getLast?_append_cons]

/-- `ys` behind `xs`. -/
theorem append (hx : Linked next prev xs) (hy : Linked next prev ys) (hnd : (xs ++ ys).Nodup)
    (hnext : ∀ a, next' a = if xs.getLast? = some a then ys.head? else next a)
    (hprev : ∀ a, prev' a = if ys.head? = some a then xs.getLast? else prev a) :
    Linked next' prev' (xs ++ ys) := by
  obtain ⟨hxs, hys, hdisj⟩ := List.nodup_append.1 hnd
  intro us a vs heq
  rw [hnext, hprev]
  rcases append_split heq with ⟨ws, hxs', hvs⟩ | ⟨ws, hus, hys'⟩
  · have hmem : a ∈ xs := by simp [hxs']
    have hno : ¬ ys.head? = some a := fun ha => hdisj a hmem a (List.mem_of_head? ha) rfl
    obtain ⟨hn, hp⟩ := hx us a ws hxs'
    rw [if_neg hno, hvs]
    refine ⟨?_, hp⟩
    split
    · rename_i ha
      rw [hxs'] at ha hxs
      rw [last_of_nodup hxs ha, List.nil_append]
    · rename_i ha
      cases ws with
      | nil => exact absurd (by simp [hxs']) ha
      | cons b ws => exact hn
  · have hmem : a ∈ ys := by simp [hys']
    have hno : ¬ xs.getLast? = some a := fun ha => hdisj a (List.mem_of_getLast? ha) a hmem rfl
    obtain ⟨hn, hp⟩ := hy ws a vs hys'
    rw [if_neg hno, hus]
    refine ⟨hn, ?_⟩
    split
    · rename_i ha
      rw [hys'] at ha hys
      rw [head_of_nodup hys ha, List.append_nil]
    · rename_i ha
      cases ws with
      | nil => exact absurd (by simp [hys']) ha
      | cons b ws => rw [hp, List.getLast?_append_cons]

end Linked

/-! ## Families -/

section Write

variable [DecidableEq α]

/-- The link of `o` becomes `v`, if `o` is an element. -/
def write (f : α → Option α) (o v : Option α) : α → Option α :=
  match o with
  | some a => Function.update f a v
  | none => f

theorem write_apply (f : α → Option α) (o v : Option α) (a : α) :
    write f o v a = if o = some a then v else f a := by
  cases o with
  | none => rfl
  | some b =>
    show Function.update f b v a = _
    rw [Function.update_apply]
    by_cases h : a = b
    · rw [if_pos h, if_pos (by rw [h])]
    · rw [if_neg h, if_neg fun heq => h (Option.some.inj heq).symm]

/-- What is written was there already. -/
theorem write_self {f : α → Option α} {o v : Option α} (h : ∀ a, o = some a → f a = v) :
    write f o v = f := by
  funext a
  rw [write_apply]
  split
  · rename_i ho
    exact (h a ho).symm
  · rfl

end Write

/-- Lists that share no element, all of them linked. -/
structure Strung (next prev : α → Option α) (f : ι → List α) : Prop where
  apart : Apart f
  linked : ∀ p, Linked next prev (f p)

namespace Strung

variable {f : ι → List α} {p p' : ι}

theorem nodup_append (h : Strung next prev f) (hne : p ≠ p') : (f p ++ f p').Nodup := by
  refine List.nodup_append.2 ⟨h.apart.nodup p, h.apart.nodup p', fun a ha b hb heq => ?_⟩
  subst heq
  exact hne (h.apart.apart p p' a ha hb)

variable [DecidableEq ι]

/-- The lists other than those at `p` and `p'` have no part in a change of the elements there. -/
theorem others (h : Strung next prev f) {us vs : List α}
    (hnext : ∀ a, a ∉ f p → a ∉ f p' → next' a = next a)
    (hprev : ∀ a, a ∉ f p → a ∉ f p' → prev' a = prev a)
    (hp : Linked next' prev' us) (hp' : Linked next' prev' vs) (r : ι) :
    Linked next' prev' (Function.update (Function.update f p us) p' vs r) := by
  by_cases hr' : r = p'
  · rw [hr', Function.update_self]
    exact hp'
  · rw [Function.update_of_ne hr']
    by_cases hr : r = p
    · rw [hr, Function.update_self]
      exact hp
    · rw [Function.update_of_ne hr]
      refine (h.linked r).frame (fun a ha => ?_) fun a ha => ?_
      · exact hnext a (fun hmem => hr (h.apart.apart r p a ha hmem))
          fun hmem => hr' (h.apart.apart r p' a ha hmem)
      · exact hprev a (fun hmem => hr (h.apart.apart r p a ha hmem))
          fun hmem => hr' (h.apart.apart r p' a ha hmem)

variable [DecidableEq α]

/-- The list at `p'` goes behind the one at `p`. -/
theorem join (h : Strung next prev f) (hne : p ≠ p')
    (hnext : next' = write next (f p).getLast? (f p').head?)
    (hprev : prev' = write prev (f p').head? (f p).getLast?) :
    Strung next' prev' (Function.update (Function.update f p (f p ++ f p')) p' []) where
  apart := h.apart.exchange hne (by simp)
  linked := by
    refine h.others (fun a ha _ => ?_) (fun a _ ha => ?_) ?_ Linked.nil
    · rw [hnext, write_apply, if_neg fun hlast => ha (List.mem_of_getLast? hlast)]
    · rw [hprev, write_apply, if_neg fun hhead => ha (List.mem_of_head? hhead)]
    · refine (h.linked p).append (h.linked p') (h.nodup_append hne) (fun a => ?_) fun a => ?_
      · rw [hnext, write_apply]
      · rw [hprev, write_apply]

/-- The list at `p'` goes to where there is none. -/
theorem rename (h : Strung next prev f) (hne : p ≠ p') (hp : f p = []) :
    Strung next prev (Function.update (Function.update f p (f p')) p' []) := by
  have hnext : next = write next (f p).getLast? (f p').head? := by
    rw [hp]
    rfl
  have hprev : prev = write prev (f p').head? (f p).getLast? := by
    rw [hp]
    exact (write_self fun a ha => (h.linked p').prev_head ha).symm
  have hjoin := h.join hne hnext hprev
  rwa [hp, List.nil_append] at hjoin

/-- The part `ys` of the list at `p` becomes the list at `p'`. -/
theorem takeOut (h : Strung next prev f) (hne : p ≠ p') (hp : f p = xs ++ ys ++ zs)
    (hp' : f p' = []) (hnext : next' = write (write next xs.getLast? zs.head?) ys.getLast? none)
    (hprev : prev' = write (write prev zs.head? xs.getLast?) ys.head? none) :
    Strung next' prev' (Function.update (Function.update f p (xs ++ zs)) p' ys) where
  apart := by
    refine h.apart.exchange hne ?_
    rw [hp, hp', List.append_nil, List.append_assoc, List.append_assoc]
    exact List.perm_append_comm.append_left xs
  linked := by
    have hlinked := hp ▸ h.linked p
    have hnd := hp ▸ h.apart.nodup p
    have hnext' : ∀ a, next' a = if ys.getLast? = some a then none
        else if xs.getLast? = some a then zs.head? else next a := by
      intro a
      rw [hnext, write_apply, write_apply]
    have hprev' : ∀ a, prev' a = if ys.head? = some a then none
        else if zs.head? = some a then xs.getLast? else prev a := by
      intro a
      rw [hprev, write_apply, write_apply]
    refine h.others (fun a ha _ => ?_) (fun a ha _ => ?_) (hlinked.outer hnd hnext' hprev')
      (hlinked.inner hnd hnext' hprev')
    · rw [hp, List.mem_append, List.mem_append, not_or, not_or] at ha
      rw [hnext', if_neg fun hlast => ha.1.2 (List.mem_of_getLast? hlast),
        if_neg fun hlast => ha.1.1 (List.mem_of_getLast? hlast)]
    · rw [hp, List.mem_append, List.mem_append, not_or, not_or] at ha
      rw [hprev', if_neg fun hhead => ha.1.2 (List.mem_of_head? hhead),
        if_neg fun hhead => ha.2 (List.mem_of_head? hhead)]

end Strung

end Costream
