import Mathlib.Data.List.Chain
import Mathlib.Data.List.Nodup
import Mathlib.Logic.Function.Basic

/-!
# Circular doubly linked lists

The entries hang on a head, and the last one leads back to it.  An entry that
was taken out leads to itself, so that it can be taken out once more.  A walk
reads where an entry leads before it visits it, so the visit may take the entry
out.
-/

namespace NiosHps.Foundation

structure Links (α : Type*) where
  next : α → α
  previous : α → α

namespace Links

variable {α σ : Type*}

section Operations

variable [DecidableEq α]

def setNext (l : Links α) (x y : α) : Links α :=
  { l with next := Function.update l.next x y }

def setPrevious (l : Links α) (x y : α) : Links α :=
  { l with previous := Function.update l.previous x y }

def insert (l : Links α) (list entry : α) : Links α :=
  let l := l.setPrevious entry list
  let l := l.setNext entry (l.next list)
  let l := l.setPrevious (l.next list) entry
  l.setNext list entry

def remove (l : Links α) (entry : α) : Links α :=
  let l := l.setPrevious (l.next entry) (l.previous entry)
  let l := l.setNext (l.previous entry) (l.next entry)
  let l := l.setPrevious entry entry
  l.setNext entry entry

def walk (links : σ → Links α) (visit : σ → α → σ) (head : α) :
    Nat → σ → α → Option σ
  | 0, _, _ => none
  | fuel + 1, s, x =>
      if x = head then some s
      else walk links visit head fuel (visit s x) ((links s).next x)

end Operations

def Joined (l : Links α) (x y : α) : Prop := l.next x = y ∧ l.previous y = x

structure Ring (l : Links α) (head : α) (entries : List α) : Prop where
  nodup : (head :: entries).Nodup
  chain : List.IsChain l.Joined (head :: (entries ++ [head]))

structure Alone (l : Links α) (x : α) : Prop where
  next : l.next x = x
  previous : l.previous x = x

variable {l l' : Links α} {head x y : α} {entries : List α}

theorem ring_nil : l.Ring head [] ↔ l.Alone head := by
  constructor
  · rintro ⟨-, hchain⟩
    obtain ⟨hnext, hprevious⟩ := List.isChain_pair.mp hchain
    exact ⟨hnext, hprevious⟩
  · rintro ⟨hnext, hprevious⟩
    exact ⟨by simp, List.isChain_pair.mpr ⟨hnext, hprevious⟩⟩

/-- A chain reads the `next` of all but the last and the `previous` of all but
the first. -/
theorem isChain_congr {xs : List α} (hchain : List.IsChain l.Joined xs)
    (hnext : ∀ x ∈ xs.dropLast, l'.next x = l.next x)
    (hprevious : ∀ x ∈ xs.tail, l'.previous x = l.previous x) :
    List.IsChain l'.Joined xs := by
  induction hchain with
  | nil => exact .nil
  | singleton x => exact .singleton x
  | @cons_cons x y xs hjoined _ ih =>
      refine .cons_cons ⟨?_, ?_⟩ (ih (fun z hz => ?_) fun z hz => ?_)
      · exact (hnext x (by simp)).trans hjoined.1
      · exact (hprevious y (by simp)).trans hjoined.2
      · exact hnext z (by simp [hz])
      · exact hprevious z (by simp only [List.tail_cons] at hz ⊢; simp [hz])

/-! ## Where the entries lead -/

theorem Ring.next_head (h : l.Ring head entries) :
    l.next head = entries.headD head := by
  cases entries with
  | nil => exact (List.isChain_pair.mp h.chain).1
  | cons x entries => exact (List.isChain_cons_cons.mp h.chain).1.1

theorem Ring.next_entry {before after : List α}
    (h : l.Ring head (before ++ x :: after)) : l.next x = after.headD head := by
  have hchain := h.chain
  rw [List.append_assoc, List.cons_append, List.isChain_cons_split] at hchain
  cases after with
  | nil => exact (List.isChain_pair.mp hchain.2).1
  | cons y after => exact (List.isChain_cons_cons.mp hchain.2).1.1

theorem exists_joined {xs : List α} (hchain : List.IsChain l.Joined xs)
    (hx : x ∈ xs.dropLast) : ∃ y, l.Joined x y := by
  induction hchain with
  | nil => simp at hx
  | singleton => simp at hx
  | @cons_cons y z xs hjoined _ ih =>
      rcases List.mem_cons.mp hx with rfl | hx
      · exact ⟨z, hjoined⟩
      · exact ih hx

theorem exists_joined_to {xs : List α} (hchain : List.IsChain l.Joined xs)
    (hx : x ∈ xs.tail) : ∃ y, l.Joined y x := by
  induction hchain with
  | nil => simp at hx
  | singleton => simp at hx
  | @cons_cons y z xs hjoined _ ih =>
      rcases List.mem_cons.mp hx with rfl | hx
      · exact ⟨y, hjoined⟩
      · exact ih hx

theorem Ring.previous_next (h : l.Ring head entries) (hx : x ∈ head :: entries) :
    l.previous (l.next x) = x := by
  have hchain : List.IsChain l.Joined ((head :: entries) ++ [head]) := h.chain
  obtain ⟨y, hnext, hprevious⟩ :=
    exists_joined hchain (by rwa [List.dropLast_concat])
  rw [hnext, hprevious]

theorem Ring.next_previous (h : l.Ring head entries) (hx : x ∈ head :: entries) :
    l.next (l.previous x) = x := by
  obtain ⟨y, hnext, hprevious⟩ :=
    exists_joined_to h.chain (x := x) (by simpa [or_comm] using hx)
  rw [hprevious, hnext]

/-! ## Putting in and taking out -/

variable [DecidableEq α] {entry : α}

theorem insert_next (hentry : entry ≠ head) (z : α) :
    (l.insert head entry).next z =
      if z = head then entry
      else if z = entry then l.next head
      else l.next z := by
  simp [insert, setNext, setPrevious, Function.update_apply, hentry.symm]

theorem insert_previous (hentry : entry ≠ head) (z : α) :
    (l.insert head entry).previous z =
      if z = l.next head then entry
      else if z = entry then head
      else l.previous z := by
  simp [insert, setNext, setPrevious, Function.update_apply, hentry.symm]

theorem remove_next (z : α) :
    (l.remove entry).next z =
      if z = entry then entry
      else if z = l.previous entry then l.next entry
      else l.next z := by
  simp [remove, setNext, setPrevious, Function.update_apply]

theorem remove_previous (z : α) :
    (l.remove entry).previous z =
      if z = entry then entry
      else if z = l.next entry then l.previous entry
      else l.previous z := by
  simp [remove, setNext, setPrevious, Function.update_apply]

theorem Ring.insert (h : l.Ring head entries) (hentry : entry ∉ head :: entries) :
    (l.insert head entry).Ring head (entry :: entries) := by
  have hhead : entry ≠ head := fun heq => hentry (by simp [heq])
  have hfirst : entry ≠ l.next head := by
    rw [h.next_head]
    cases entries <;> grind
  have hjoined : (l.insert head entry).Joined head entry := by
    constructor
    · rw [insert_next hhead, if_pos rfl]
    · rw [insert_previous hhead, if_neg hfirst, if_pos rfl]
  have hjoined' : (l.insert head entry).Joined entry (l.next head) := by
    constructor
    · rw [insert_next hhead, if_neg hhead, if_pos rfl]
    · rw [insert_previous hhead, if_pos rfl]
  have hnodup := h.nodup
  refine ⟨by grind, .cons_cons hjoined ?_⟩
  rw [h.next_head] at hjoined'
  cases entries with
  | nil => exact List.isChain_pair.mpr hjoined'
  | cons y entries =>
      have hy : l.next head = y := h.next_head
      have hrest : List.IsChain l.Joined ((y :: entries) ++ [head]) :=
        (List.isChain_cons_cons.mp h.chain).2
      have hrest' : List.IsChain (l.insert head entry).Joined
          ((y :: entries) ++ [head]) := by
        refine isChain_congr hrest (fun z hz => ?_) fun z hz => ?_
        · rw [List.dropLast_concat] at hz
          rw [insert_next hhead, if_neg (by grind), if_neg (by grind)]
        · rw [List.cons_append, List.tail_cons] at hz
          rw [insert_previous hhead, if_neg (by grind), if_neg (by grind)]
      exact .cons_cons hjoined' hrest'

theorem Ring.remove {before after : List α}
    (h : l.Ring head (before ++ entry :: after)) :
    (l.remove entry).Ring head (before ++ after) := by
  have hnodup := h.nodup
  have hchain := h.chain
  refine ⟨by grind, ?_⟩
  obtain ⟨front, p, hp⟩ := (List.eq_nil_or_concat' (head :: before)).resolve_left
    (List.cons_ne_nil _ _)
  obtain ⟨q, back, hq⟩ := List.exists_cons_of_ne_nil
    (List.append_ne_nil_of_right_ne_nil after (List.cons_ne_nil head []))
  have hleft : before = (front ++ [p]).tail := by rw [← hp, List.tail_cons]
  have hright : after = (q :: back).dropLast := by rw [← hq, List.dropLast_concat]
  rw [List.append_assoc, List.cons_append, hq, ← List.cons_append, hp,
    List.append_assoc, List.singleton_append, List.isChain_append_cons_cons,
    List.isChain_cons_cons] at hchain
  obtain ⟨hfront, ⟨-, hprevious⟩, ⟨hnext, -⟩, hback⟩ := hchain
  rw [List.append_assoc, hq, ← List.cons_append, hp, List.append_assoc,
    List.singleton_append, List.isChain_append_cons_cons]
  have hpe : p ≠ entry := by grind
  have hq' : q ∈ after ++ [head] := by rw [hq]; exact List.mem_cons_self
  have hqe : q ≠ entry := by grind
  have hback' : (q :: back).Nodup := by rw [← hq]; grind
  refine ⟨isChain_congr hfront (fun z hz => ?_) fun z hz => ?_, ⟨?_, ?_⟩,
    isChain_congr hback (fun z hz => ?_) fun z hz => ?_⟩
  · rw [List.dropLast_concat] at hz
    rw [remove_next, hprevious, if_neg (by grind), if_neg (by grind)]
  · rw [← hleft] at hz
    rw [remove_previous, hnext, if_neg (by grind), if_neg (by grind)]
  · rw [remove_next, hprevious, if_neg hpe, if_pos rfl, hnext]
  · rw [remove_previous, hnext, if_neg hqe, if_pos rfl, hprevious]
  · rw [← hright] at hz
    rw [remove_next, hprevious, if_neg (by grind), if_neg (by grind)]
  · rw [List.tail_cons] at hz
    rw [remove_previous, hnext, if_neg (by grind), if_neg (by grind)]

/-! ## What was taken out -/

theorem alone_remove (entry : α) : (l.remove entry).Alone entry where
  next := by rw [remove_next, if_pos rfl]
  previous := by rw [remove_previous, if_pos rfl]

theorem Alone.remove_eq (h : l.Alone entry) : l.remove entry = l := by
  obtain ⟨hnext, hprevious⟩ := h
  have hnext' : (l.remove entry).next = l.next := by
    funext z
    rw [remove_next, hnext, hprevious]
    split_ifs with hz <;> simp [hz, hnext]
  have hprevious' : (l.remove entry).previous = l.previous := by
    funext z
    rw [remove_previous, hnext, hprevious]
    split_ifs with hz <;> simp [hz, hprevious]
  rcases hl : l.remove entry with ⟨next, previous⟩
  rw [hl] at hnext' hprevious'
  subst hnext' hprevious'
  rfl

theorem Alone.insert (h : l.Alone x) (hring : l.Ring head entries)
    (hhead : entry ≠ head) (hx : x ≠ head) (hentry : x ≠ entry) :
    (l.insert head entry).Alone x := by
  have hfirst : x ≠ l.next head := by
    intro heq
    have hback := hring.previous_next List.mem_cons_self
    rw [← heq, h.previous] at hback
    exact hx hback
  constructor
  · rw [insert_next hhead, if_neg hx, if_neg hentry, h.next]
  · rw [insert_previous hhead, if_neg hfirst, if_neg hentry, h.previous]

theorem Alone.remove (h : l.Alone x) (hring : l.Ring head entries)
    (hmem : entry ∈ entries) (hentry : x ≠ entry) : (l.remove entry).Alone x := by
  have hmem' : entry ∈ head :: entries := List.mem_cons_of_mem _ hmem
  have hnext : x ≠ l.next entry := by
    intro heq
    have hback := hring.previous_next hmem'
    rw [← heq, h.previous] at hback
    exact hentry hback
  have hprevious : x ≠ l.previous entry := by
    intro heq
    have hback := hring.next_previous hmem'
    rw [← heq, h.next] at hback
    exact hentry hback
  constructor
  · rw [remove_next, if_neg hentry, if_neg hprevious, h.next]
  · rw [remove_previous, if_neg hentry, if_neg hnext, h.previous]

/-! ## Walking round -/

/-- A walk that takes out at most the entry it visits comes to all the others
as well. -/
theorem walk_eq_foldl {links : σ → Links α} {visit : σ → α → σ}
    (hvisit : ∀ s x, links (visit s x) = links s ∨
      links (visit s x) = (links s).remove x)
    {s : σ} {before rest : List α} (h : (links s).Ring head (before ++ rest))
    {fuel : Nat} (hfuel : rest.length < fuel) :
    walk links visit head fuel s (rest.headD head) = some (rest.foldl visit s) := by
  induction rest generalizing s before fuel with
  | nil =>
      obtain ⟨fuel, rfl⟩ := Nat.exists_eq_add_of_lt hfuel
      simp [walk]
  | cons x rest ih =>
      obtain ⟨fuel, rfl⟩ : ∃ k, fuel = k + 1 := ⟨fuel - 1, by omega⟩
      have hhead : x ≠ head := by
        have hnodup := h.nodup
        grind
      have hlength : rest.length < fuel := by
        rw [List.length_cons] at hfuel
        omega
      rw [List.headD_cons, walk, if_neg hhead, h.next_entry, List.foldl_cons]
      rcases hvisit s x with hlinks | hlinks
      · have hring : (links (visit s x)).Ring head ((before ++ [x]) ++ rest) := by
          rwa [hlinks, List.append_assoc, List.singleton_append]
        exact ih hring hlength
      · have hring : (links (visit s x)).Ring head (before ++ rest) := by
          rw [hlinks]
          exact h.remove
        exact ih hring hlength

end Links

end NiosHps.Foundation
