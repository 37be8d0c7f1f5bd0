import Mathlib.Data.List.Nodup

/-!
# Linked lists

The cells reached from a head by following links until the null link. The links are a function
from cells to cells, for example the word that memory holds at each address.
-/

namespace Machine

variable {α : Type*} {next next' : α → α} {null head c : α} {cs ds : List α}

/-- The links lead from `head` through exactly the cells `cs`, in order, to `null`. -/
def Linked (next : α → α) (null : α) (head : α) : List α → Prop
  | [] => head = null
  | c :: cs => head = c ∧ c ≠ null ∧ Linked next null (next c) cs

/-- A linked list depends only on the links of its cells. -/
theorem Linked.congr (h : Linked next null head cs) (hnext : ∀ c ∈ cs, next c = next' c) :
    Linked next' null head cs := by
  induction cs generalizing head with
  | nil => exact h
  | cons c cs ih =>
    obtain ⟨hhead, hc, hrest⟩ := h
    rw [hnext c List.mem_cons_self] at hrest
    exact ⟨hhead, hc, ih hrest fun d hd => hnext d (List.mem_cons_of_mem c hd)⟩

/-- From one head the links lead through one list. -/
theorem Linked.unique (hc : Linked next null head cs) (hd : Linked next null head ds) :
    cs = ds := by
  induction cs generalizing head ds with
  | nil =>
    cases ds with
    | nil => rfl
    | cons d ds => exact absurd (hd.1.symm.trans hc) hd.2.1
  | cons c cs ih =>
    cases ds with
    | nil => exact absurd (hc.1.symm.trans hd) hc.2.1
    | cons d ds =>
      have hcd : c = d := hc.1.symm.trans hd.1
      subst hcd
      rw [ih hc.2.2 hd.2.2]

/-- The links from any cell of the list lead through the cells after it. -/
theorem Linked.of_append (h : Linked next null head (cs ++ c :: ds)) :
    Linked next null c (c :: ds) := by
  induction cs generalizing head with
  | nil => exact ⟨rfl, h.2⟩
  | cons b cs ih => exact ih h.2.2

/-- No cell occurs twice: the links from it would lead through lists of different length. -/
theorem Linked.nodup (h : Linked next null head cs) : cs.Nodup := by
  induction cs generalizing head with
  | nil => exact List.nodup_nil
  | cons c cs ih =>
    obtain ⟨_, hc, hrest⟩ := h
    refine List.nodup_cons.mpr ⟨fun hmem => ?_, ih hrest⟩
    obtain ⟨as, bs, rfl⟩ := List.append_of_mem hmem
    have hagain := hrest.of_append.2.2
    have hlength := congrArg List.length (hrest.unique hagain)
    rw [List.length_append, List.length_cons] at hlength
    omega

/-- The head is null exactly when the list is empty. -/
theorem Linked.eq_null_iff (h : Linked next null head cs) : head = null ↔ cs = [] := by
  cases cs with
  | nil => exact ⟨fun _ => rfl, fun _ => h⟩
  | cons c cs => simp [h.1, h.2.1]

/-- A list that does not start with null has its head as first cell. -/
theorem Linked.exists_cons (h : Linked next null head cs) (hne : head ≠ null) :
    ∃ ds, cs = head :: ds ∧ Linked next null (next head) ds := by
  cases cs with
  | nil => exact absurd h hne
  | cons c ds => exact ⟨ds, by rw [h.1], by rw [h.1]; exact h.2.2⟩

end Machine
