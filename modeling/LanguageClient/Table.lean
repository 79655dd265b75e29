namespace LanguageClient

abbrev Table (κ α : Type) := List (κ × α)

namespace Table

variable {κ α β : Type} [DecidableEq κ]

def get? (key : κ) : Table κ α → Option α
  | [] => none
  | (k, v) :: rest => if k = key then some v else get? key rest

def put [LT κ] [DecidableLT κ] (key : κ) (value : α) : Table κ α → Table κ α
  | [] => [(key, value)]
  | (k, v) :: rest =>
    if key < k then (key, value) :: (k, v) :: rest
    else if key = k then (key, value) :: rest
    else (k, v) :: put key value rest

def erase (key : κ) : Table κ α → Table κ α
  | [] => []
  | (k, v) :: rest => if k = key then erase key rest else (k, v) :: erase key rest

def adjust (key : κ) (f : α → α) : Table κ α → Table κ α
  | [] => []
  | (k, v) :: rest => (k, if k = key then f v else v) :: adjust key f rest

def contains (key : κ) (t : Table κ α) : Bool :=
  (get? key t).isSome

def keys (t : Table κ α) : List κ :=
  t.map Prod.fst

/-- A table of entries in any order; the last one with a key counts. -/
def ofEntries [LT κ] [DecidableLT κ] (entries : List (κ × α)) : Table κ α :=
  entries.foldl (fun t e => put e.1 e.2 t) []

@[simp] theorem get?_nil (key : κ) : get? key ([] : Table κ α) = none := rfl

@[simp] theorem get?_put_self [LT κ] [DecidableLT κ] (key : κ) (v : α) (t : Table κ α) :
    get? key (put key v t) = some v := by
  induction t with
  | nil => simp [put, get?]
  | cons e rest ih =>
    obtain ⟨k, w⟩ := e
    by_cases h : key < k
    · simp [put, h, get?]
    · by_cases h' : key = k
      · subst h'; simp [put, h, get?]
      · simp [put, h, h', get?, ih, Ne.symm h']

theorem get?_put_of_ne [LT κ] [DecidableLT κ] {key other : κ} (h : key ≠ other) (v : α)
    (t : Table κ α) : get? other (put key v t) = get? other t := by
  induction t with
  | nil => simp [put, get?, h]
  | cons e rest ih =>
    obtain ⟨k, w⟩ := e
    by_cases hl : key < k
    · simp [put, hl, get?, h]
    · by_cases he : key = k
      · subst he; simp [put, hl, get?, h]
      · simp [put, hl, he, get?, ih]

@[simp] theorem get?_erase_self (key : κ) (t : Table κ α) : get? key (erase key t) = none := by
  induction t with
  | nil => rfl
  | cons e rest ih =>
    obtain ⟨k, w⟩ := e
    by_cases h : k = key <;> simp [erase, get?, h, ih]

theorem get?_erase_of_ne {key other : κ} (h : key ≠ other) (t : Table κ α) :
    get? other (erase key t) = get? other t := by
  induction t with
  | nil => rfl
  | cons e rest ih =>
    obtain ⟨k, w⟩ := e
    by_cases hk : k = key
    · subst hk; simp [erase, get?, h, ih]
    · simp [erase, get?, hk, ih]

@[simp] theorem get?_adjust_self (key : κ) (f : α → α) (t : Table κ α) :
    get? key (adjust key f t) = (get? key t).map f := by
  induction t with
  | nil => rfl
  | cons e rest ih =>
    obtain ⟨k, w⟩ := e
    by_cases h : k = key <;> simp [adjust, get?, h, ih]

theorem get?_adjust_of_ne {key other : κ} (h : key ≠ other) (f : α → α) (t : Table κ α) :
    get? other (adjust key f t) = get? other t := by
  induction t with
  | nil => rfl
  | cons e rest ih =>
    obtain ⟨k, w⟩ := e
    by_cases hk : k = key
    · subst hk; simp [adjust, get?, h, ih]
    · simp [adjust, get?, hk, ih]

end Table

end LanguageClient
