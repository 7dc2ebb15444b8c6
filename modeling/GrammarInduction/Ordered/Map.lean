/-!
# Maps that remember the order of insertion

`OrderedMap κ β` is a finite map whose entries stand in the order in which their keys first came
in. Writing to a key that is there keeps the place and the key of its entry and changes the value;
writing to a new key adds an entry at the end. Every operation that writes goes through
`OrderedMap.update`, and `OrderedMap.keys_update` says what it does to the keys.
-/

namespace GrammarInduction

universe u v w

/-- A finite map in order of insertion. -/
structure OrderedMap (κ : Type u) (β : Type v) [BEq κ] where
  /-- The entries, oldest first. -/
  entries : List (κ × β)
  /-- No two entries have equal keys. -/
  distinct : entries.Pairwise fun p q => (p.1 == q.1) = false

namespace OrderedMap

variable {κ : Type u} {β : Type v} {γ : Type w} [BEq κ]

/-- The map without entries. -/
def empty : OrderedMap κ β := ⟨[], .nil⟩

instance : Inhabited (OrderedMap κ β) := ⟨empty⟩

/-- Entries after the value at `k` has become `f` of the value before. -/
def updateEntries (k : κ) (f : Option β → β) : List (κ × β) → List (κ × β)
  | [] => [(k, f none)]
  | (k', v) :: rest =>
    if k' == k then (k', f (some v)) :: rest else (k', v) :: updateEntries k f rest

theorem mem_updateEntries {k : κ} {f : Option β → β} {es : List (κ × β)} {p : κ × β}
    (h : p ∈ updateEntries k f es) : p.1 = k ∨ ∃ q ∈ es, q.1 = p.1 := by
  induction es with
  | nil => simp_all [updateEntries]
  | cons e es ih =>
    obtain ⟨k', v⟩ := e
    simp only [updateEntries] at h
    split at h
    · rcases List.mem_cons.1 h with rfl | h
      · exact .inr ⟨_, List.mem_cons_self, rfl⟩
      · exact .inr ⟨p, List.mem_cons_of_mem _ h, rfl⟩
    · rcases List.mem_cons.1 h with rfl | h
      · exact .inr ⟨_, List.mem_cons_self, rfl⟩
      · rcases ih h with h | ⟨q, hq, hk⟩
        · exact .inl h
        · exact .inr ⟨q, List.mem_cons_of_mem _ hq, hk⟩

theorem distinct_updateEntries (k : κ) (f : Option β → β) {es : List (κ × β)}
    (h : es.Pairwise fun p q => (p.1 == q.1) = false) :
    (updateEntries k f es).Pairwise fun p q => (p.1 == q.1) = false := by
  induction es with
  | nil => simp [updateEntries]
  | cons e es ih =>
    obtain ⟨k', v⟩ := e
    rw [List.pairwise_cons] at h
    simp only [updateEntries]
    split
    · exact List.pairwise_cons.2 ⟨fun p hp => h.1 p hp, h.2⟩
    next hk =>
      refine List.pairwise_cons.2 ⟨fun p hp => ?_, ih h.2⟩
      rcases mem_updateEntries hp with hpk | ⟨q, hq, hqp⟩
      · simpa [hpk] using hk
      · simpa [hqp] using h.1 q hq

/-- What holds of all entries holds of them after an update, if it holds of the new entry, or of the one
that has the key already with its new value. -/
theorem forall_updateEntries {k : κ} {f : Option β → β} {es : List (κ × β)} {P : κ × β → Prop}
    (hes : ∀ e ∈ es, P e) (hnew : P (k, f none))
    (hold : ∀ k' v, (k' == k) = true → P (k', v) → P (k', f (some v))) :
    ∀ e ∈ updateEntries k f es, P e := by
  induction es with
  | nil => simpa [updateEntries] using hnew
  | cons e es ih =>
    obtain ⟨k', v⟩ := e
    rw [List.forall_mem_cons] at hes
    unfold updateEntries
    split
    next hk => exact List.forall_mem_cons.2 ⟨hold k' v hk hes.1, hes.2⟩
    · exact List.forall_mem_cons.2 ⟨hes.1, ih hes.2⟩

/-- Sets the value at `k` to `f` of the value before, `none` standing for no entry. -/
def update (m : OrderedMap κ β) (k : κ) (f : Option β → β) : OrderedMap κ β :=
  ⟨updateEntries k f m.entries, distinct_updateEntries k f m.distinct⟩

/-- Sets the value at `k`. -/
def insert (m : OrderedMap κ β) (k : κ) (v : β) : OrderedMap κ β :=
  m.update k fun _ => v

/-- Writes the pairs of a list one after the other. -/
def insertAll (m : OrderedMap κ β) (pairs : List (κ × β)) : OrderedMap κ β :=
  pairs.foldl (fun m p => m.insert p.1 p.2) m

/-- The map of a list of pairs: a repeated key keeps its first place and its last value. -/
def ofList (pairs : List (κ × β)) : OrderedMap κ β :=
  empty.insertAll pairs

/-- The entry with key `k`. -/
def find? (m : OrderedMap κ β) (k : κ) : Option (κ × β) :=
  m.entries.find? fun p => p.1 == k

/-- The value at `k`. -/
def get? (m : OrderedMap κ β) (k : κ) : Option β :=
  (m.find? k).map Prod.snd

def contains (m : OrderedMap κ β) (k : κ) : Bool :=
  m.entries.any fun p => p.1 == k

def keys (m : OrderedMap κ β) : List κ := m.entries.map Prod.fst

def values (m : OrderedMap κ β) : List β := m.entries.map Prod.snd

def size (m : OrderedMap κ β) : Nat := m.entries.length

def isEmpty (m : OrderedMap κ β) : Bool := m.entries.isEmpty

/-- Keeps the entries whose key passes a test. -/
def filterKeys (m : OrderedMap κ β) (p : κ → Bool) : OrderedMap κ β :=
  ⟨m.entries.filter fun e => p e.1, m.distinct.filter _⟩

/-- Takes out the entry with key `k`. -/
def erase (m : OrderedMap κ β) (k : κ) : OrderedMap κ β :=
  m.filterKeys fun k' => !(k' == k)

/-- Changes every value, given its key. -/
def mapValues (m : OrderedMap κ β) (f : κ → β → γ) : OrderedMap κ γ :=
  ⟨m.entries.map fun e => (e.1, f e.1 e.2), List.pairwise_map.2 m.distinct⟩

/-! ## Keys after each operation -/

@[simp] theorem entries_empty : (empty : OrderedMap κ β).entries = [] := rfl

theorem length_keys (m : OrderedMap κ β) : m.keys.length = m.size := List.length_map _

theorem contains_of_mem_keys [ReflBEq κ] {m : OrderedMap κ β} {k : κ} (h : k ∈ m.keys) :
    m.contains k = true := by
  obtain ⟨e, he, rfl⟩ := List.mem_map.1 h
  exact List.any_eq_true.2 ⟨e, he, BEq.rfl⟩

theorem keys_updateEntries (k : κ) (f : Option β → β) (es : List (κ × β)) :
    (updateEntries k f es).map Prod.fst =
      if es.any (fun p => p.1 == k) then es.map Prod.fst else es.map Prod.fst ++ [k] := by
  induction es with
  | nil => simp [updateEntries]
  | cons e es ih =>
    obtain ⟨k', v⟩ := e
    by_cases hk : (k' == k) = true
    · simp [updateEntries, hk]
    · simp only [updateEntries, hk, List.map_cons, List.any_cons, Bool.false_or, ih, if_false,
        Bool.false_eq_true]
      split <;> simp

/-- Writing adds the key at the end if it is new and leaves the keys alone otherwise. -/
theorem keys_update (m : OrderedMap κ β) (k : κ) (f : Option β → β) :
    (m.update k f).keys = if m.contains k then m.keys else m.keys ++ [k] :=
  keys_updateEntries k f m.entries

theorem keys_insert (m : OrderedMap κ β) (k : κ) (v : β) :
    (m.insert k v).keys = if m.contains k then m.keys else m.keys ++ [k] :=
  keys_update m k _

theorem entries_update_of_not_contains {m : OrderedMap κ β} {k : κ} (h : m.contains k = false)
    (f : Option β → β) : (m.update k f).entries = m.entries ++ [(k, f none)] := by
  obtain ⟨es, hd⟩ := m
  simp only [contains, update] at h ⊢
  clear hd
  induction es with
  | nil => rfl
  | cons e es ih =>
    rw [List.any_cons, Bool.or_eq_false_iff] at h
    simp [updateEntries, h.1, ih h.2]

theorem entries_insert_of_not_contains {m : OrderedMap κ β} {k : κ} (h : m.contains k = false)
    (v : β) : (m.insert k v).entries = m.entries ++ [(k, v)] :=
  entries_update_of_not_contains h _

/-- Writing pairs with new keys adds them at the end. -/
theorem entries_insertAll_of_new {m : OrderedMap κ β} {es : List (κ × β)}
    (h : (m.entries ++ es).Pairwise fun p q => (p.1 == q.1) = false) :
    (m.insertAll es).entries = m.entries ++ es := by
  induction es generalizing m with
  | nil => simp [insertAll]
  | cons e es ih =>
    have hnew : m.contains e.1 = false := by
      rw [contains, List.any_eq_false]
      exact fun p hp => by simpa using (List.pairwise_append.1 h).2.2 p hp e List.mem_cons_self
    have hentries := entries_insert_of_not_contains hnew e.2
    rw [List.append_cons] at h ⊢
    rw [← hentries] at h ⊢
    exact ih h

/-- A map is the map of its entries. -/
theorem ofList_entries (m : OrderedMap κ β) : ofList m.entries = m := by
  have hentries : (ofList m.entries).entries = m.entries :=
    entries_insertAll_of_new (m := empty) m.distinct
  cases hm : ofList m.entries
  cases m
  simp_all

/-- Writing the value that is there changes nothing. -/
theorem insert_eq_self {m : OrderedMap κ β} {k : κ} {v : β} (h : m.get? k = some v) :
    m.insert k v = m := by
  obtain ⟨es, hd⟩ := m
  simp only [get?, find?] at h
  suffices hes : updateEntries k (fun _ => v) es = es by simp only [insert, update, hes]
  clear hd
  induction es with
  | nil => cases h
  | cons e es ih =>
    rw [List.find?_cons] at h
    rw [updateEntries]
    cases hk : e.1 == k with
    | true =>
      rw [hk] at h
      obtain rfl : e.2 = v := Option.some.inj h
      rfl
    | false =>
      rw [hk] at h
      simp [ih h]

/-! ## Values after each operation, for keys compared by an equivalence -/

section Equivalence

variable [EquivBEq κ]

theorem find?_updateEntries (k k' : κ) (f : Option β → β) (es : List (κ × β)) :
    ((updateEntries k f es).find? fun p => p.1 == k').map Prod.snd =
      if k == k' then some (f ((es.find? fun p => p.1 == k).map Prod.snd))
      else (es.find? fun p => p.1 == k').map Prod.snd := by
  induction es with
  | nil => by_cases h : (k == k') = true <;> simp [updateEntries, h]
  | cons e es ih =>
    obtain ⟨j, v⟩ := e
    by_cases hj : (j == k) = true
    · have hjk' : (j == k') = (k == k') := BEq.congr_left hj
      by_cases h : (k == k') = true <;> simp [updateEntries, hj, hjk', h]
    · by_cases h : (k == k') = true
      · have hjk' : (j == k') = (j == k) := (BEq.congr_right h).symm
        simpa [updateEntries, hj, hjk', h] using ih
      · by_cases hj' : (j == k') = true
        · simp [updateEntries, hj, hj', h]
        · simpa [updateEntries, hj, hj', h] using ih

theorem get?_update (m : OrderedMap κ β) (k k' : κ) (f : Option β → β) :
    (m.update k f).get? k' = if k == k' then some (f (m.get? k)) else m.get? k' :=
  find?_updateEntries k k' f m.entries

theorem get?_insert (m : OrderedMap κ β) (k k' : κ) (v : β) :
    (m.insert k v).get? k' = if k == k' then some v else m.get? k' :=
  get?_update m k k' _

theorem get?_congr (m : OrderedMap κ β) {k k' : κ} (h : (k == k') = true) :
    m.get? k = m.get? k' := by
  simp only [get?, find?, BEq.congr_right h]

end Equivalence

theorem contains_eq_isSome (m : OrderedMap κ β) (k : κ) : m.contains k = (m.get? k).isSome := by
  rw [Bool.eq_iff_iff]
  simp [contains, get?, find?, List.find?_isSome]

@[simp] theorem get?_empty (k : κ) : (empty : OrderedMap κ β).get? k = none := rfl

@[simp] theorem contains_empty (k : κ) : (empty : OrderedMap κ β).contains k = false := rfl

section Lawful

variable [LawfulBEq κ]

theorem get?_eq_some_iff {m : OrderedMap κ β} {k : κ} {v : β} :
    m.get? k = some v ↔ (k, v) ∈ m.entries := by
  obtain ⟨es, hd⟩ := m
  simp only [get?, find?, Option.map_eq_some_iff]
  constructor
  · rintro ⟨⟨k', v'⟩, h, rfl⟩
    obtain rfl : k' = k := by simpa using List.find?_some h
    exact List.mem_of_find?_eq_some h
  · intro h
    refine ⟨(k, v), ?_, rfl⟩
    induction es with
    | nil => cases h
    | cons e es ih =>
      rw [List.pairwise_cons] at hd
      rcases List.mem_cons.1 h with rfl | h
      · simp
      · rw [List.find?_cons_of_neg (by simpa using hd.1 _ h)]
        exact ih hd.2 h

theorem contains_iff_mem_keys {m : OrderedMap κ β} {k : κ} :
    m.contains k = true ↔ k ∈ m.keys := by
  simp [contains, keys]

theorem nodup_keys (m : OrderedMap κ β) : m.keys.Nodup :=
  List.pairwise_map.2 (m.distinct.imp fun h => by simpa using h)

theorem entries_ofList_of_nodup {pairs : List (κ × β)} (h : (pairs.map Prod.fst).Nodup) :
    (ofList pairs).entries = pairs :=
  entries_insertAll_of_new (m := empty) <|
    (List.pairwise_map.1 h).imp fun hne => beq_eq_false_iff_ne.2 hne

theorem get?_insertAll (m r : OrderedMap κ β) (k : κ) :
    (m.insertAll r.entries).get? k = (r.get? k).or (m.get? k) := by
  obtain ⟨es, hd⟩ := r
  simp only [insertAll, get?, find?]
  induction es generalizing m with
  | nil => simp
  | cons e es ih =>
    rw [List.pairwise_cons] at hd
    rw [List.foldl_cons, ih (m.insert e.1 e.2) hd.2, List.find?_cons]
    have hget := get?_insert m e.1 k e.2
    simp only [get?, find?] at hget
    rw [hget]
    cases hek : e.1 == k with
    | true =>
      have hnone : es.find? (fun p => p.1 == k) = none := List.find?_eq_none.2 fun p hp => by
        have := hd.1 p hp
        rwa [eq_of_beq hek, BEq.comm, ← Bool.not_eq_true] at this
      simp [hnone]
    | false => simp

theorem get?_mapValues (m : OrderedMap κ β) (f : κ → β → γ) (k : κ) :
    (m.mapValues f).get? k = (m.get? k).map (f k) := by
  simp only [get?, find?, mapValues, List.find?_map, Function.comp_def, Option.map_map]
  cases h : m.entries.find? (fun p => p.1 == k) with
  | none => rfl
  | some p =>
    have hk : p.1 = k := by simpa using List.find?_some h
    simp [hk]

theorem get?_filterKeys (m : OrderedMap κ β) (p : κ → Bool) (k : κ) :
    (m.filterKeys p).get? k = if p k then m.get? k else none := by
  simp only [get?, find?, filterKeys, List.find?_filter]
  split
  next hk =>
    congr 2
    funext e
    cases hek : e.1 == k with
    | true => simp [eq_of_beq hek, hk]
    | false => simp
  next hk =>
    rw [Option.map_eq_none_iff, List.find?_eq_none]
    rintro e - hek
    rw [decide_eq_true_eq, beq_iff_eq] at hek
    exact hk (hek.2 ▸ hek.1)

end Lawful

theorem contains_insert [EquivBEq κ] (m : OrderedMap κ β) (k k' : κ) (v : β) :
    (m.insert k v).contains k' = (m.contains k' || k == k') := by
  rw [contains_eq_isSome, contains_eq_isSome, get?_insert]
  by_cases h : (k == k') = true <;> simp [h]

theorem contains_update [EquivBEq κ] (m : OrderedMap κ β) (k k' : κ) (f : Option β → β) :
    (m.update k f).contains k' = (m.contains k' || k == k') := by
  rw [contains_eq_isSome, contains_eq_isSome, get?_update]
  by_cases h : (k == k') = true <;> simp [h]

end OrderedMap

end GrammarInduction
