import Mathlib.Data.List.Basic

/-!
# Mailboxes in one queue

A queue that several receivers share. When it is full the oldest message makes room, whoever it is
for; a receiver takes the first one of its own.
-/

namespace Mailbox

variable {α κ : Type*} [DecidableEq κ] {key : α → κ}

/-- What makes room for one more. -/
def evicted (room : ℕ) (q : List α) : List α := if room ≤ q.length then q.take 1 else []

def push (room : ℕ) (q : List α) (a : α) : List α :=
  (if room ≤ q.length then q.drop 1 else q) ++ [a]

/-- The first message for a receiver. -/
def first (key : α → κ) (k : κ) (q : List α) : Option α := q.find? fun a => key a = k

/-- The queue without it. -/
def rest (key : α → κ) (k : κ) (q : List α) : List α := q.eraseP fun a => key a = k

/-- What was sent to a receiver is what it was sent and is gone, and then what is still there. -/
def Accounts (key : α → κ) (sent gone q : List α) : Prop :=
  ∀ k, sent.filter (fun a => key a = k) = gone.filter (fun a => key a = k) ++ q.filter fun a => key a = k

theorem evicted_append (room : ℕ) (q : List α) (a : α) :
    evicted room q ++ push room q a = q ++ [a] := by
  unfold evicted push
  split
  · rw [← List.append_assoc, List.take_append_drop]
  · rfl

theorem length_push {room : ℕ} {q : List α} (hroom : 0 < room) (h : q.length ≤ room) (a : α) :
    (push room q a).length ≤ room := by
  unfold push
  rw [List.length_append, List.length_singleton]
  split
  · rw [List.length_drop]
    omega
  · omega

theorem length_rest {k : κ} {q : List α} {a : α} (h : first key k q = some a) :
    (rest key k q).length + 1 = q.length := by
  have hmem : a ∈ q := List.mem_of_find?_eq_some h
  have hlength := List.length_eraseP_of_mem hmem (List.find?_some h)
  have hpos := List.length_pos_of_mem hmem
  unfold rest
  omega

/-- Only the first message of a receiver goes. -/
theorem first_rest {k : κ} {q : List α} {a : α} (h : first key k q = some a) (k' : κ) :
    q.filter (fun b => key b = k') =
      [a].filter (fun b => key b = k') ++ (rest key k q).filter fun b => key b = k' := by
  induction q with
  | nil => cases h
  | cons b q ih =>
    unfold first at h
    unfold rest
    by_cases hb : key b = k
    · rw [List.find?_cons_of_pos (by simpa using hb)] at h
      obtain rfl := Option.some.inj h
      rw [List.eraseP_cons_of_pos (by simpa using hb), ← List.filter_append, List.singleton_append]
    · rw [List.find?_cons_of_neg (by simpa using hb)] at h
      have ha : key a = k := by simpa using List.find?_some h
      have hrest := ih h
      unfold rest at hrest
      rw [List.eraseP_cons_of_neg (by simpa using hb)]
      by_cases hk : key b = k'
      · -- a message for another receiver that comes before the one that is taken
        have hne : ¬key a = k' := fun h' => hb (hk.trans (h'.symm.trans ha))
        simp [hk, hrest, hne]
      · simp [hk, hrest]

theorem key_of_first {k : κ} {q : List α} {a : α} (h : first key k q = some a) : key a = k := by
  simpa using List.find?_some h

namespace Accounts

variable {sent gone q : List α}

theorem empty : Accounts key [] [] [] := fun _ => rfl

theorem mem_sent (h : Accounts key sent gone q) {a : α} (ha : a ∈ gone) : a ∈ sent := by
  have hfilter : a ∈ sent.filter fun b => key b = key a := by
    rw [h (key a)]
    apply List.mem_append_left
    exact List.mem_filter.mpr ⟨ha, by simp⟩
  exact List.mem_of_mem_filter hfilter

/-- A message is sent, and the oldest one may make room for it. -/
theorem push (h : Accounts key sent gone q) (room : ℕ) (a : α) :
    Accounts key (sent ++ [a]) (gone ++ evicted room q) (push room q a) := by
  intro k
  have hall := congrArg (List.filter fun b => key b = k) (evicted_append room q a)
  rw [List.filter_append, List.filter_append] at hall
  rw [List.filter_append, List.filter_append, h k, List.append_assoc, List.append_assoc, hall]

/-- A receiver takes its first message. -/
theorem take (h : Accounts key sent gone q) {k : κ} {a : α} (ha : first key k q = some a) :
    Accounts key sent (gone ++ [a]) (rest key k q) := by
  intro k'
  rw [h k', List.filter_append, List.append_assoc, ← first_rest ha]

end Accounts
end Mailbox
