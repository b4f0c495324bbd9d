import ShaderDag.Kind

/-!
# Input tables of documents

A document lists its attributes and its uniforms by name.  The order in which they are written does not
matter, and of two inputs with one name the later one counts.

* `InputTable` — inputs in ascending order of their names;
* `InputTable.insert` — one more input.
-/

namespace ShaderDag

/-- Names with kinds, in ascending order of the names; so no name stands twice.  Names are ordered by
their characters, which is also the order of their bytes. -/
structure InputTable where
  entries : List (String × Kind)
  ascending : entries.Pairwise fun a b => a.1 < b.1
deriving DecidableEq, Repr

namespace InputTable

/-- The table without inputs. -/
def empty : InputTable := ⟨[], .nil⟩

/-- A list of inputs with one more at its place; an input of the same name is replaced. -/
def insertEntry (name : String) (kind : Kind) : List (String × Kind) → List (String × Kind)
  | [] => [(name, kind)]
  | e :: rest =>
    if name = e.1 then (name, kind) :: rest
    else if name < e.1 then (name, kind) :: e :: rest
    else e :: insertEntry name kind rest

theorem mem_insertEntry {name : String} {kind : Kind} {entries : List (String × Kind)}
    {x : String × Kind} (h : x ∈ insertEntry name kind entries) : x = (name, kind) ∨ x ∈ entries := by
  induction entries with
  | nil => simpa [insertEntry] using h
  | cons e rest ih =>
    rw [insertEntry] at h
    split at h
    · rcases List.mem_cons.1 h with h | h
      · exact .inl h
      · exact .inr (List.mem_cons_of_mem _ h)
    · split at h
      · exact List.mem_cons.1 h
      · rcases List.mem_cons.1 h with h | h
        · exact .inr (h ▸ List.mem_cons_self)
        · exact (ih h).imp id (List.mem_cons_of_mem _)

theorem pairwise_insertEntry (name : String) (kind : Kind) {entries : List (String × Kind)}
    (h : entries.Pairwise fun a b => a.1 < b.1) :
    (insertEntry name kind entries).Pairwise fun a b => a.1 < b.1 := by
  induction entries with
  | nil => exact .cons (by simp) .nil
  | cons e rest ih =>
    obtain ⟨head, tail⟩ := List.pairwise_cons.1 h
    rw [insertEntry]
    split
    · next same => exact .cons (fun x hx => same ▸ head x hx) tail
    · next differs =>
      split
      · next less =>
        refine .cons (fun x hx => ?_) h
        rcases List.mem_cons.1 hx with hx | hx
        · exact hx ▸ less
        · exact String.lt_trans less (head x hx)
      · next notLess =>
        refine .cons (fun x hx => ?_) (ih tail)
        rcases mem_insertEntry hx with hx | hx
        · subst hx
          exact String.not_le.1 fun le => differs (String.le_antisymm le (String.not_lt.1 notLess))
        · exact head x hx

/-- The table with one more input; an input of the same name is replaced. -/
def insert (t : InputTable) (name : String) (kind : Kind) : InputTable :=
  ⟨insertEntry name kind t.entries, pairwise_insertEntry name kind t.ascending⟩

end InputTable

end ShaderDag
