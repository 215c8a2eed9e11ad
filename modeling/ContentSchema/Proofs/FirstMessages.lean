import Mathlib.Data.List.Nodup
import ContentSchema.ErrorMap
import ContentSchema.Proofs.EntryLaws
import ContentSchema.Proofs.Splitting

/-!
# First messages — what an error map holds after any number of steps

A message is added only under a key that has none.  So a map that comes from the empty one, by
messages that are recorded and maps that are taken over, has every key once, in the order in which
the keys were first written, with the message of the first step that wrote it (`run_first`).

A map is taken over below a first segment.  When there is no dot in the segment, a key below it
determines the segment and the rest (`below_injective`).  So maps below different segments do not
meet, and all of their messages are kept (`entries_run`, `nodup_merges`).
-/

namespace ContentSchema

namespace ErrorMap

/-! ### One message -/

section

variable (errors : ErrorMap) (key message : String)

theorem add_of_mem {errors : ErrorMap} {key : String} (h : key ∈ Entries.keys errors.entries) :
    errors.add key message = errors := if_pos (Entries.contains_iff_mem_keys.mpr h)

theorem add_of_not_mem {errors : ErrorMap} {key : String}
    (h : key ∉ Entries.keys errors.entries) :
    errors.add key message = ⟨errors.entries ++ [(key, message)]⟩ :=
  if_neg fun hkey => h (Entries.contains_iff_mem_keys.mp hkey)

/-- A message is found where there was none before. -/
theorem get?_add (other : String) :
    (errors.add key message).get? other =
      (errors.get? other).or (if key = other then some message else none) := by
  by_cases hkey : key ∈ Entries.keys errors.entries
  · rw [add_of_mem message hkey]
    by_cases h : key = other
    · obtain ⟨m, hm⟩ := Entries.contains_iff.mp (Entries.contains_iff_mem_keys.mpr hkey)
      rw [← h, if_pos rfl, show errors.get? key = some m from hm, Option.some_or]
    · rw [if_neg h, Option.or_none]
  · rw [add_of_not_mem message hkey]
    exact Entries.get?_append other errors.entries [(key, message)]

theorem get?_add_of_ne {key other : String} (h : key ≠ other) (errors : ErrorMap)
    (message : String) : (errors.add key message).get? other = errors.get? other := by
  rw [get?_add, if_neg h, Option.or_none]

theorem contains_add : (errors.add key message).contains key = true := by
  show ((errors.add key message).get? key).isSome = true
  rw [get?_add, if_pos rfl, Option.isSome_or, Option.isSome_some, Bool.or_true]

theorem isEmpty_add : (errors.add key message).isEmpty = false := by
  have hkey : Entries.contains key (errors.add key message).entries = true :=
    contains_add errors key message
  unfold isEmpty
  generalize (errors.add key message).entries = es at hkey ⊢
  cases es with
  | nil => cases hkey
  | cons e es => rfl

theorem isEmpty_insert (path : Path) : (errors.insert path message).isEmpty = false :=
  isEmpty_add errors path.text message

end

/-- Every path has one message. -/
def Distinct (errors : ErrorMap) : Prop := (Entries.keys errors.entries).Nodup

theorem distinct_empty : empty.Distinct := List.nodup_nil

theorem Distinct.add {errors : ErrorMap} (h : errors.Distinct) (key message : String) :
    (errors.add key message).Distinct := by
  by_cases hkey : key ∈ Entries.keys errors.entries
  · rwa [add_of_mem message hkey]
  · rw [add_of_not_mem message hkey]
    show (List.map Prod.fst (errors.entries ++ [(key, message)])).Nodup
    rw [List.map_append]
    refine List.nodup_append.mpr ⟨h, by simp, ?_⟩
    rintro a ha b hb rfl
    rw [List.mem_singleton.mp hb] at ha
    exact hkey ha

/-! ### Many messages -/

/-- Messages added one after the other. -/
def addAll (errors : ErrorMap) (es : Entries String) : ErrorMap :=
  es.foldl (fun errors e => errors.add e.1 e.2) errors

section

variable (errors : ErrorMap)

theorem addAll_append (es fs : Entries String) :
    errors.addAll (es ++ fs) = (errors.addAll es).addAll fs := List.foldl_append

theorem Distinct.addAll {errors : ErrorMap} (h : errors.Distinct) (es : Entries String) :
    (errors.addAll es).Distinct := by
  induction es generalizing errors with
  | nil => exact h
  | cons e es ih => exact ih (h.add e.1 e.2)

theorem isEmpty_addAll (es : Entries String) :
    (errors.addAll es).isEmpty = true ↔ errors.isEmpty = true ∧ es = [] := by
  induction es generalizing errors with
  | nil => exact (and_iff_left rfl).symm
  | cons e es ih =>
    show ((errors.add e.1 e.2).addAll es).isEmpty = true ↔ _
    rw [ih, isEmpty_add]
    simp

/-- The first message under a key stays. -/
theorem get?_addAll (es : Entries String) (key : String) :
    (errors.addAll es).get? key = (errors.get? key).or (es.get? key) := by
  induction es generalizing errors with
  | nil => exact (Option.or_none).symm
  | cons e es ih =>
    show ((errors.add e.1 e.2).addAll es).get? key = _
    rw [ih, get?_add, Entries.get?_cons, Option.or_assoc]
    split <;> rfl

/-- New keys are listed behind those there are, in the order in which they come first. -/
theorem keys_addAll (es : Entries String) :
    Entries.keys (errors.addAll es).entries = Entries.keys errors.entries ++
      ((Entries.keys es).removeAll (Entries.keys errors.entries)).eraseDups := by
  induction es generalizing errors with
  | nil => exact (List.append_nil _).symm
  | cons e es ih =>
    have hkeys : Entries.keys (e :: es) = e.1 :: Entries.keys es := rfl
    show Entries.keys ((errors.add e.1 e.2).addAll es).entries = _
    rw [ih, hkeys]
    by_cases h : e.1 ∈ Entries.keys errors.entries
    · rw [add_of_mem e.2 h]
      simp [List.cons_removeAll, h]
    · have hadded : Entries.keys (errors.entries ++ [(e.1, e.2)]) =
          Entries.keys errors.entries ++ [e.1] := List.map_append
      -- what is new after this key is what was new before it, less this key
      have hrest : (Entries.keys es).removeAll (Entries.keys errors.entries ++ [e.1]) =
          ((Entries.keys es).removeAll (Entries.keys errors.entries)).filter
            (fun key => !key == e.1) := by
        unfold List.removeAll
        rw [List.filter_filter]
        refine List.filter_congr fun key _ => ?_
        by_cases hkey : key = e.1 <;> simp [hkey]
      rw [add_of_not_mem e.2 h, hadded, hrest, List.cons_removeAll, if_pos (by simpa using h),
        List.eraseDups_cons, List.append_assoc]
      rfl

/-- Messages under new keys that differ are all kept. -/
theorem entries_addAll {errors : ErrorMap} {es : Entries String}
    (h : (Entries.keys (errors.entries ++ es)).Nodup) :
    (errors.addAll es).entries = errors.entries ++ es := by
  induction es generalizing errors with
  | nil => exact (List.append_nil _).symm
  | cons e es ih =>
    have hnew : e.1 ∉ Entries.keys errors.entries := by
      intro hmem
      unfold Entries.keys at h hmem
      rw [List.map_append] at h
      obtain ⟨-, -, hapart⟩ := List.nodup_append.mp h
      exact hapart _ hmem _ (List.mem_map_of_mem List.mem_cons_self) rfl
    show ((errors.add e.1 e.2).addAll es).entries = _
    rw [add_of_not_mem e.2 hnew, ih]
    · exact List.append_assoc ..
    · show (Entries.keys (errors.entries ++ [e] ++ es)).Nodup
      rw [List.append_assoc]
      exact h

end

/-! ### Keys below a first segment -/

/-- The messages of a map, each below a first segment. -/
def entriesBelow (first : String) (other : ErrorMap) : Entries String :=
  other.entries.map fun e => (below first e.1, e.2)

theorem merge_eq (errors : ErrorMap) (first : String) (other : ErrorMap) :
    errors.merge first other = errors.addAll (entriesBelow first other) := by
  unfold addAll entriesBelow
  rw [List.foldl_map]
  rfl

theorem keys_entriesBelow (first : String) (other : ErrorMap) :
    Entries.keys (entriesBelow first other) = (Entries.keys other.entries).map (below first) := by
  unfold Entries.keys entriesBelow
  rw [List.map_map, List.map_map]
  rfl

/-- The pieces of such a key are the segment and those of the rest, if there is a rest. -/
theorem split_below {first : String} (h : '.' ∉ first.toList) (key : String) :
    Text.split '.' (below first key) =
      first :: if key = "" then [] else Text.split '.' key := by
  unfold below
  split
  · exact Text.split_of_not_mem h
  · have happend := Text.split_append '.' first key
    rw [Text.split_of_not_mem h] at happend
    exact happend

/-- A key below a segment without dots determines the segment and the rest. -/
theorem below_injective {a b key key' : String} (ha : '.' ∉ a.toList) (hb : '.' ∉ b.toList)
    (h : below a key = below b key') : a = b ∧ key = key' := by
  have hsplit := congrArg (Text.split '.') h
  rw [split_below ha, split_below hb] at hsplit
  obtain ⟨hfirst, hrest⟩ := List.cons.inj hsplit
  refine ⟨hfirst, ?_⟩
  by_cases hkey : key = "" <;> by_cases hkey' : key' = ""
  · rw [hkey, hkey']
  · rw [if_pos hkey, if_neg hkey'] at hrest
    exact absurd hrest.symm (Text.split_ne_nil '.' key')
  · rw [if_neg hkey, if_pos hkey'] at hrest
    exact absurd hrest (Text.split_ne_nil '.' key)
  · rw [if_neg hkey, if_neg hkey'] at hrest
    rw [← Text.join_split '.' key, hrest, Text.join_split]

/-! ### Steps -/

/-- A step in the making of an error map. -/
inductive Write
  /-- Record a message at a path. -/
  | insert (path : Path) (message : String)
  /-- Take over the messages of another map, each path below `first`. -/
  | merge (first : String) (other : ErrorMap)

namespace Write

/-- The messages that a step writes, each under its key. -/
def entries : Write → Entries String
  | .insert path message => [(path.text, message)]
  | .merge first other => entriesBelow first other

/-- The map after a step. -/
def apply (errors : ErrorMap) : Write → ErrorMap
  | .insert path message => errors.insert path message
  | .merge first other => errors.merge first other

/-- A step adds what it writes, one message after the other. -/
theorem apply_eq (errors : ErrorMap) (write : Write) :
    apply errors write = errors.addAll write.entries := by
  cases write with
  | insert path message => rfl
  | merge first other => exact merge_eq errors first other

end Write

/-- The map that steps make, from the empty one on. -/
def run (writes : List Write) : ErrorMap := writes.foldl Write.apply .empty

/-- All that the steps write, in order. -/
def written (writes : List Write) : Entries String := writes.flatMap Write.entries

theorem run_eq (writes : List Write) : run writes = empty.addAll (written writes) := by
  have hfold : ∀ (writes : List Write) (errors : ErrorMap),
      writes.foldl Write.apply errors = errors.addAll (written writes) := by
    intro writes
    induction writes with
    | nil => exact fun errors => rfl
    | cons write writes ih =>
      intro errors
      rw [List.foldl_cons, Write.apply_eq, ih, ← addAll_append]
      rfl
  exact hfold writes .empty

theorem distinct_run (writes : List Write) : (run writes).Distinct := by
  rw [run_eq]
  exact distinct_empty.addAll _

/-- Where no key is written twice, everything that is written is kept. -/
theorem entries_run {writes : List Write} (h : (Entries.keys (written writes)).Nodup) :
    (run writes).entries = written writes := by
  rw [run_eq]
  exact entries_addAll h

/-- The maps with one message for each key are those that steps make. -/
theorem distinct_iff {errors : ErrorMap} : errors.Distinct ↔ ∃ writes, run writes = errors := by
  constructor
  · intro h
    have hwritten : written (errors.entries.map fun e => .insert ⟨[e.1]⟩ e.2) = errors.entries := by
      unfold written
      rw [List.flatMap_map]
      exact List.flatMap_singleton' errors.entries
    refine ⟨errors.entries.map fun e => .insert ⟨[e.1]⟩ e.2, ?_⟩
    obtain ⟨es⟩ := errors
    refine congrArg ErrorMap.mk ((entries_run ?_).trans hwritten)
    rw [hwritten]
    exact h
  · rintro ⟨writes, rfl⟩
    exact distinct_run writes

/-- A key has the message of the first step that writes it. -/
theorem get?_run (writes : List Write) (key : String) :
    (run writes).get? key = writes.findSome? fun write => write.entries.get? key := by
  have hwritten : Entries.get? key (written writes) =
      writes.findSome? fun write => write.entries.get? key := by
    induction writes with
    | nil => rfl
    | cons write writes ih =>
      have happend := Entries.get?_append key write.entries (written writes)
      rw [ih] at happend
      refine happend.trans ?_
      rw [List.findSome?_cons]
      cases write.entries.get? key <;> rfl
  rw [run_eq, get?_addAll, hwritten]
  rfl

theorem keys_run (writes : List Write) :
    Entries.keys (run writes).entries = (Entries.keys (written writes)).eraseDups := by
  rw [run_eq, keys_addAll]
  show [] ++ ((Entries.keys (written writes)).removeAll []).eraseDups = _
  rw [List.nil_append, List.removeAll_nil]

/-! ### Maps side by side -/

/-- Take over maps, each below its own first segment. -/
def merges (parts : List (String × ErrorMap)) : List Write :=
  parts.map fun part => .merge part.1 part.2

/-- Below different first segments without dots nothing is written twice. -/
theorem nodup_merges {parts : List (String × ErrorMap)} (hfirsts : (parts.map (·.1)).Nodup)
    (hdots : ∀ part ∈ parts, '.' ∉ part.1.toList) (hmaps : ∀ part ∈ parts, part.2.Distinct) :
    (Entries.keys (written (merges parts))).Nodup := by
  have hkeys : Entries.keys (written (merges parts)) =
      parts.flatMap fun part => (Entries.keys part.2.entries).map (below part.1) := by
    unfold written merges
    rw [List.flatMap_map]
    refine List.map_flatMap.trans ?_
    exact congrArg (parts.flatMap ·) (funext fun part => keys_entriesBelow part.1 part.2)
  rw [hkeys]
  refine List.pairwise_flatMap.mpr ⟨fun part hpart => ?_, ?_⟩
  · refine List.Pairwise.map _ (fun a b hne h => hne ?_) (hmaps part hpart)
    exact (below_injective (hdots part hpart) (hdots part hpart) h).2
  · refine (List.pairwise_map.mp hfirsts).imp_of_mem fun {p q} hp hq hne => ?_
    rintro a ha b hb rfl
    obtain ⟨k, -, rfl⟩ := List.mem_map.mp ha
    obtain ⟨l, -, hl⟩ := List.mem_map.mp hb
    exact hne (below_injective (hdots q hq) (hdots p hp) hl).1.symm

/-- Maps below different first segments without dots are all found again. -/
theorem get?_merges {parts : List (String × ErrorMap)} (hfirsts : (parts.map (·.1)).Nodup)
    (hdots : ∀ part ∈ parts, '.' ∉ part.1.toList) (hmaps : ∀ part ∈ parts, part.2.Distinct)
    {part : String × ErrorMap} (hpart : part ∈ parts) (key : String) :
    (run (merges parts)).get? (below part.1 key) = part.2.get? key := by
  have hnodup := nodup_merges hfirsts hdots hmaps
  unfold get?
  rw [entries_run hnodup]
  refine Option.ext fun message => ?_
  rw [← Entries.mem_iff_get? hnodup, ← Entries.mem_iff_get? (hmaps part hpart)]
  constructor
  · intro hmem
    obtain ⟨write, hwrite, hmem⟩ := List.mem_flatMap.mp hmem
    obtain ⟨q, hq, rfl⟩ := List.mem_map.mp hwrite
    obtain ⟨e, he, heq⟩ := List.mem_map.mp hmem
    obtain ⟨hbelow, rfl⟩ := Prod.mk.inj heq
    obtain ⟨hfirst, rfl⟩ := below_injective (hdots q hq) (hdots part hpart) hbelow
    rw [← List.inj_on_of_nodup_map hfirsts hq hpart hfirst]
    exact he
  · intro hmem
    exact List.mem_flatMap.mpr ⟨.merge part.1 part.2, List.mem_map_of_mem hpart,
      List.mem_map.mpr ⟨_, hmem, rfl⟩⟩

/-- An error map keeps the first message of every key, in the order in which keys come first.  The
maps with one message for each key are those that are made so, and when such maps are taken over
below different segments of digits, all of their messages are kept. -/
theorem run_first :
    (∀ writes : List Write, (run writes).Distinct ∧
      (∀ key, (run writes).get? key = writes.findSome? fun write => write.entries.get? key) ∧
      Entries.keys (run writes).entries =
        (Entries.keys (writes.flatMap Write.entries)).eraseDups) ∧
    (∀ errors : ErrorMap, errors.Distinct ↔ ∃ writes, run writes = errors) ∧
    ∀ parts : List (String × ErrorMap), (parts.map (·.1)).Nodup →
      (∀ part ∈ parts, ∀ c ∈ part.1.toList, c.isDigit = true) →
      (∀ part ∈ parts, part.2.Distinct) →
        (run (merges parts)).entries = (merges parts).flatMap Write.entries ∧
        ∀ part ∈ parts, ∀ key, (run (merges parts)).get? (below part.1 key) = part.2.get? key := by
  refine ⟨fun writes => ⟨distinct_run writes, get?_run writes, keys_run writes⟩,
    fun errors => distinct_iff, fun parts hfirsts hdigits hmaps => ?_⟩
  have hdots : ∀ part ∈ parts, '.' ∉ part.1.toList := by
    intro part hpart hdot
    exact absurd (hdigits part hpart '.' hdot) (by decide)
  exact ⟨entries_run (nodup_merges hfirsts hdots hmaps),
    fun part hpart key => get?_merges hfirsts hdots hmaps hpart key⟩

/-- A title that is written three times, beside a message for the whole record. -/
def titleErrors : ErrorMap :=
  run [.insert ⟨["title"]⟩ "is required", .merge "title" ⟨[("", "is short")]⟩,
    .insert .root "is refused", .insert ⟨["title"]⟩ "is short"]

/-- The same messages below `1`, `11` and no digit at all. -/
def titleParts : List (String × ErrorMap) :=
  [("1", titleErrors), ("11", titleErrors), ("", titleErrors)]

/-- The first message of the title stays, and the maps below `1` and `11` are kept side by side. -/
theorem run_first_title :
    (titleErrors.Distinct ∧ titleErrors.get? "title" = some "is required" ∧
      Entries.keys titleErrors.entries = ["title", ""]) ∧
    ((titleParts.map (·.1)).Nodup ∧
      (run (merges titleParts)).entries =
        [("1.title", "is required"), ("1", "is refused"), ("11.title", "is required"),
          ("11", "is refused"), (".title", "is required"), ("", "is refused")] ∧
      (run (merges titleParts)).get? "11.title" = some "is required") := by
  obtain ⟨hrun, -, hparts⟩ := run_first
  obtain ⟨hdistinct, hget, hkeys⟩ := hrun [.insert ⟨["title"]⟩ "is required",
    .merge "title" ⟨[("", "is short")]⟩, .insert .root "is refused",
    .insert ⟨["title"]⟩ "is short"]
  have hfirsts : (titleParts.map (·.1)).Nodup := by decide
  have hmaps : ∀ part ∈ titleParts, part.2.Distinct := by
    simp [titleParts, titleErrors, hdistinct]
  obtain ⟨hentries, hfound⟩ := hparts titleParts hfirsts (by simp [titleParts]) hmaps
  have heleven := hfound ("11", titleErrors) (by simp [titleParts]) "title"
  refine ⟨⟨hdistinct, (hget "title").trans (by decide), hkeys.trans (by decide)⟩, hfirsts,
    hentries.trans (by decide), ?_⟩
  exact heleven.trans ((hget "title").trans (by decide))

end ErrorMap

end ContentSchema
