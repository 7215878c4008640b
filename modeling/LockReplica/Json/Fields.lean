import LockReplica.Json.Record

/-!
# How records are read

What `fields?` finds depends on the values of the named fields and on nothing else: not on the order of the fields
(`fields?_perm`), nor on others (`fields?_cons_of_not_mem`). A record that is written is read back (`fields?_record`).
Each name has its own place in the list that is found, so that another value of a field changes that place only
(`fields?_object_append_cons`).
-/

namespace LockReplica.Json

universe u v

/-! ## Lists that are read -/

section

variable {α : Type u} {β : Type v} {f g : α → Option β} {xs : List α}

/-- A list is read if all its members are. -/
theorem mapM_eq_some_iff {ys : List β} : xs.mapM f = some ys ↔ xs.map f = ys.map some := by
  induction xs generalizing ys with
  | nil => cases ys <;> simp
  | cons x xs ih =>
    cases ys with
    | nil => simp [List.mapM_cons, Option.bind_eq_some_iff]
    | cons y ys => simp [List.mapM_cons, Option.bind_eq_some_iff, ih]

theorem mapM_eq_none_iff : xs.mapM f = none ↔ ∃ x ∈ xs, f x = none := by
  induction xs with
  | nil => simp
  | cons x xs ih =>
    cases hx : f x with
    | none => simp [List.mapM_cons, hx]
    | some y => cases hxs : xs.mapM f <;> simp_all [List.mapM_cons]

theorem mapM_congr (h : ∀ x ∈ xs, f x = g x) : xs.mapM f = xs.mapM g := by
  ext ys
  rw [mapM_eq_some_iff, mapM_eq_some_iff, List.map_congr_left h]

/-- A member may give way to another one that is read alike. -/
theorem mapM_append_cons {x x' : α} (h : f x = f x') (before after : List α) :
    (before ++ x :: after).mapM f = (before ++ x' :: after).mapM f := by
  rw [List.mapM_append, List.mapM_append, List.mapM_cons, List.mapM_cons, h]

theorem length_of_mapM {ys : List β} (h : xs.mapM f = some ys) : ys.length = xs.length := by
  simpa using (congrArg List.length (mapM_eq_some_iff.1 h)).symm

theorem mem_of_mapM {ys : List β} (h : xs.mapM f = some ys) {y : β} : y ∈ ys ↔ ∃ x ∈ xs, f x = some y := by
  rw [← List.mem_map, mapM_eq_some_iff.1 h]
  simp

end

/-! ## Single fields -/

theorem sole?_eq_some_iff {fs : List (Option String × Json)} {name : String} {v : Json} :
    sole? fs name = some v ↔ fs.filter (·.1 = some name) = [(some name, v)] := by
  rw [sole?]
  constructor
  · intro h
    split at h
    · rename_i k w hfs
      have hk : k = some name := by
        have : (k, w) ∈ fs.filter (·.1 = some name) := by rw [hfs]; exact List.mem_singleton.2 rfl
        simpa using (List.mem_filter.1 this).2
      rw [hfs, hk, Option.some.inj h]
    · cases h
  · intro h
    rw [h]

/-- Fields of other names do not matter. -/
theorem sole?_append_cons_of_ne {before after : List (Option String × Json)} {k : Option String} {name : String}
    (h : k ≠ some name) (v : Json) : sole? (before ++ (k, v) :: after) name = sole? (before ++ after) name := by
  rw [sole?, sole?, List.filter_append, List.filter_append, List.filter_cons_of_neg (by simpa using h)]

/-- A name has the value that stands behind it, unless it stands elsewhere too. -/
theorem sole?_append_cons_self (before after : List (Option String × Json)) (name : String) :
    (∀ v, sole? (before ++ (some name, v) :: after) name = none) ∨
      ∀ v, sole? (before ++ (some name, v) :: after) name = some v := by
  have hfilter (v : Json) : (before ++ (some name, v) :: after).filter (·.1 = some name) =
      before.filter (·.1 = some name) ++ (some name, v) :: after.filter (·.1 = some name) := by
    rw [List.filter_append, List.filter_cons_of_pos (by simp)]
  by_cases hother : before.filter (·.1 = some name) = [] ∧ after.filter (·.1 = some name) = []
  · refine .inr fun v => sole?_eq_some_iff.2 ?_
    rw [hfilter, hother.1, hother.2]
    rfl
  · refine .inl fun v => Option.eq_none_iff_forall_ne_some.2 fun w hw => hother ?_
    rw [sole?_eq_some_iff, hfilter] at hw
    rcases List.append_eq_singleton_iff.1 hw with ⟨hbefore, hafter⟩ | ⟨-, hafter⟩
    · exact ⟨hbefore, (List.cons.inj hafter).2⟩
    · cases hafter

theorem sole?_perm {fs fs' : List (Option String × Json)} (h : fs.Perm fs') (name : String) :
    sole? fs name = sole? fs' name := by
  ext v
  have hfilter := h.filter (·.1 = some name)
  rw [sole?_eq_some_iff, sole?_eq_some_iff]
  exact ⟨fun hfs => List.perm_singleton.1 (hfs ▸ hfilter).symm, fun hfs => List.perm_singleton.1 (hfs ▸ hfilter)⟩

/-- A name that stands once has its value. -/
theorem sole?_record {fields : List (String × Json)} (h : (fields.map Prod.fst).Nodup) {name : String} {v : Json}
    (hv : (name, v) ∈ fields) : sole? (fields.map fun (name, v) => (some name, v)) name = some v := by
  rw [sole?_eq_some_iff]
  induction fields with
  | nil => cases hv
  | cons f fields ih =>
    obtain ⟨hf, hfields⟩ := List.nodup_cons.1 h
    rcases List.mem_cons.1 hv with rfl | hv'
    · rw [List.map_cons, List.filter_cons_of_pos (by simp), List.filter_eq_nil_iff.2]
      rintro ⟨n, w⟩ hw
      obtain ⟨g, hg, heq⟩ := List.mem_map.1 hw
      cases heq
      simp only [decide_eq_true_eq, Option.some.injEq]
      rintro rfl
      exact hf (List.mem_map.2 ⟨_, hg, rfl⟩)
    · have hne : f.1 ≠ name := by
        rintro rfl
        exact hf (List.mem_map.2 ⟨_, hv', rfl⟩)
      rw [List.map_cons, List.filter_cons_of_neg (by simpa using hne)]
      exact ih hfields hv'

/-! ## Records -/

theorem fields?_perm {fs fs' : List (Option String × Json)} (h : fs.Perm fs') (names : List String) :
    (object fs).fields? names = (object fs').fields? names := by
  rw [fields?, fields?, h.all_eq, funext (sole?_perm h)]

/-- A field that is not asked for does not matter. -/
theorem fields?_cons_of_not_mem {names : List String} {name : String} (h : name ∉ names)
    (fs : List (Option String × Json)) (v : Json) :
    (object ((some name, v) :: fs)).fields? names = (object fs).fields? names := by
  have hsole : names.mapM (sole? ((some name, v) :: fs)) = names.mapM (sole? fs) := by
    refine mapM_congr fun n hn => @sole?_append_cons_of_ne [] fs (some name) n ?_ v
    rintro ⟨⟩
    exact h hn
  rw [fields?, fields?, hsole, List.all_cons]
  rfl

/-- Each name has its own place in what is read. -/
theorem fields?_object_append_cons {ns ms : List String} {name : String} (hnames : (ns ++ name :: ms).Nodup)
    (before after : List (Option String × Json)) :
    (∀ v, (object (before ++ (some name, v) :: after)).fields? (ns ++ name :: ms) = none) ∨
      ∃ l r, l.length = ns.length ∧ r.length = ms.length ∧
        ∀ v, (object (before ++ (some name, v) :: after)).fields? (ns ++ name :: ms) = some (l ++ v :: r) := by
  obtain ⟨hns, hms⟩ : name ∉ ns ∧ name ∉ ms := by
    obtain ⟨-, hcons, hne⟩ := List.nodup_append.1 hnames
    exact ⟨fun h => hne name h name List.mem_cons_self rfl, (List.nodup_cons.1 hcons).1⟩
  have hother (v : Json) {ls : List String} (hls : name ∉ ls) :
      ls.mapM (sole? (before ++ (some name, v) :: after)) = ls.mapM (sole? (before ++ after)) := by
    refine mapM_congr fun n hn => sole?_append_cons_of_ne ?_ v
    rintro ⟨⟩
    exact hls hn
  have hread (v : Json) : (object (before ++ (some name, v) :: after)).fields? (ns ++ name :: ms) =
      if (before ++ after).all (·.1.isSome) then
        (ns.mapM (sole? (before ++ after))).bind fun l =>
          ((sole? (before ++ (some name, v) :: after) name).bind fun w =>
            (ms.mapM (sole? (before ++ after))).bind fun r => some (w :: r)).bind fun r => some (l ++ r)
      else none := by
    have hall : (before ++ (some name, v) :: after).all (·.1.isSome) = (before ++ after).all (·.1.isSome) := by
      rw [List.all_append, List.all_append, List.all_cons]
      rfl
    rw [fields?, hall, List.mapM_append, List.mapM_cons, hother v hns, hother v hms]
    rfl
  simp only [hread]
  by_cases hall : (before ++ after).all (·.1.isSome)
  · rcases hl : ns.mapM (sole? (before ++ after)) with _ | l
    · simp
    rcases hr : ms.mapM (sole? (before ++ after)) with _ | r
    · simp
    rcases sole?_append_cons_self before after name with hself | hself
    · simp [hself]
    · exact .inr ⟨l, r, length_of_mapM hl, length_of_mapM hr, fun v => by simp [hself, hall]⟩
  · simp [hall]

/-- A record is read by the names of its fields. -/
theorem fields?_record {names : List String} {vs : List Json} (h : names.Nodup) (hlen : names.length = vs.length) :
    (record (names.zip vs)).fields? names = some vs := by
  have hfst : (names.zip vs).map Prod.fst = names := List.map_fst_zip (by omega)
  have hsnd : (names.zip vs).map Prod.snd = vs := List.map_snd_zip (by omega)
  have hsole : ((names.zip vs).map Prod.fst).map (sole? ((names.zip vs).map fun (name, v) => (some name, v))) =
      ((names.zip vs).map Prod.snd).map some := by
    rw [List.map_map, List.map_map]
    exact List.map_congr_left fun f hf => sole?_record (by rwa [hfst]) hf
  rw [hfst, hsnd] at hsole
  rw [record, fields?, if_pos (by simp), mapM_eq_some_iff.2 hsole]

theorem content?_free (names : List String) (j : Json) : j.content? .free names = j.fields? names := by
  cases j <;> rfl

theorem content?_record {layout : Layout} {names : List String} {vs : List Json} (h : names.Nodup)
    (hlen : names.length = vs.length) : (record (names.zip vs)).content? layout names = some vs := fields?_record h hlen

end LockReplica.Json
