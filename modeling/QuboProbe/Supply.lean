/-
  QuboProbe.Supply

  Values that are made one at a time, each only when it is asked for, so that
  whoever stops early pays for no more than what was looked at.

  `Supply.toList` is the view through which a supply is reasoned about, and
  `Supply.ofList_toList` says that there is nothing more to a supply.
-/

namespace QuboProbe

inductive Supply (β : Type) where
  | exhausted
  | item (value : β) (rest : Unit → Supply β)

namespace Supply

variable {β γ σ : Type}

/-- All values, in order. -/
def toList : Supply β → List β
  | exhausted => []
  | item value rest => value :: (rest ()).toList

def ofList : List β → Supply β
  | [] => exhausted
  | value :: rest => item value fun _ => ofList rest

/-- The values of one supply and then those of another, which is made when the first is used up. -/
def append : Supply β → (Unit → Supply β) → Supply β
  | exhausted, more => more ()
  | item value rest, more => item value fun _ => (rest ()).append more

def map (f : β → γ) : Supply β → Supply γ
  | exhausted => exhausted
  | item value rest => item (f value) fun _ => (rest ()).map f

/-- So many values of a function, from an argument on. -/
def tabulate (f : Nat → β) : Nat → Nat → Supply β
  | 0, _ => exhausted
  | count + 1, k => item (f k) fun _ => tabulate f count (k + 1)

/-- So many values that a state gives one after another. -/
def unfold (next : σ → β × σ) : Nat → σ → Supply β
  | 0, _ => exhausted
  | count + 1, s =>
    let (value, s) := next s
    item value fun _ => unfold next count s

/-! ## The values of a supply -/

@[simp] theorem toList_exhausted : (exhausted : Supply β).toList = [] := rfl

@[simp] theorem toList_item (value : β) (rest : Unit → Supply β) :
    (item value rest).toList = value :: (rest ()).toList := rfl

@[simp] theorem toList_ofList (values : List β) : (ofList values).toList = values := by
  induction values with
  | nil => rfl
  | cons value rest ih => simp [ofList, ih]

theorem ofList_toList (s : Supply β) : ofList s.toList = s := by
  induction s with
  | exhausted => rfl
  | item value rest ih => simp [ofList, ih]

@[simp] theorem toList_append (s : Supply β) (more : Unit → Supply β) :
    (s.append more).toList = s.toList ++ (more ()).toList := by
  induction s with
  | exhausted => rfl
  | item value rest ih => simp [append, ih]

@[simp] theorem toList_map (f : β → γ) (s : Supply β) : (s.map f).toList = s.toList.map f := by
  induction s with
  | exhausted => rfl
  | item value rest ih => simp [map, ih]

@[simp] theorem toList_tabulate (f : Nat → β) (count k : Nat) :
    (tabulate f count k).toList = (List.range' k count).map f := by
  induction count generalizing k with
  | zero => rfl
  | succ count ih => simp [tabulate, ih, List.range'_succ]

end Supply

end QuboProbe
