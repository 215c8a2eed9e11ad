import ContentSchema.Catalog.Shape
import ContentSchema.Proofs.MemberLaws

/-!
# Fits — the shape a declaration asks of a composite value

`Fits c nulls bare d v` says that the containers of `v` are as the composite kind of `d` wants them:
declared keys only, known variants, known and allowed blocks.  With `nulls`, null may stand for an
entry; with `bare`, a block entry may lack its `fields`.  The fields themselves are left open: they
are members of the value and fit, or not, on their own.
-/

namespace ContentSchema

/-- Every key is one of those to keep. -/
def KeysWithin (keep : String → Bool) (ms : Entries Value) : Prop := ∀ e ∈ ms, keep e.1 = true

theorem KeysWithin.insert {keep : String → Bool} {ms : Entries Value} (h : KeysWithin keep ms)
    {key : String} (hk : keep key = true) (w : Value) : KeysWithin keep (ms.insert key w) := by
  intro e he
  rcases Entries.mem_insert he with rfl | he
  · exact hk
  · exact h e he

/-- An entry of a list: an object that fits, or null where nulls are let through. -/
inductive EntryFits (nulls : Bool) (fits : Entries Value → Prop) : Value → Prop
  | null (h : nulls = true) : EntryFits nulls fits .null
  | object {ms : Entries Value} (h : fits ms) : EntryFits nulls fits (.object ms)

/-- An entry names a variant and has no other keys than that variant's fields. -/
def VariantFits (d : Declaration) (ms : Entries Value) : Prop :=
  ∃ schema, d.variantOf? (.object ms) = some schema ∧
    KeysWithin (fun key => key = variantKey || Entries.contains key schema) ms

/-- The fields of a block entry are an object with declared keys; a bare entry may lack them. -/
def FieldsFit (bare : Bool) (block : Block) (fields : Option Value) : Prop :=
  (fields = none ∧ bare = true) ∨
    ∃ ms, fields = some (.object ms) ∧ KeysWithin (Entries.contains · block.fields) ms

/-- The slots of a block entry, if there are any, are lists under declared names. -/
def SlotsFit (block : Block) (slots : Option Value) : Prop :=
  ∀ s, slots = some s → ∃ ms, s = .object ms ∧
    ∀ e ∈ ms, Entries.contains e.1 block.slots = true ∧ ∃ items, e.2 = .list items

/-- A block entry at a place that takes the blocks `allowed`, any if that is not given. -/
inductive BlockFits (c : Catalog) (nulls bare : Bool) : Option (List String) → Value → Prop
  | null (allowed : Option (List String)) (h : nulls = true) : BlockFits c nulls bare allowed .null
  | block {allowed : Option (List String)} {ms : Entries Value} {block : Block}
      (name : Entries.get? "name" ms = some (.string block.name))
      (known : c.block? block.name = some block)
      (taken : allowed.all (·.contains block.name) = true)
      (keys : KeysWithin Catalog.blockKeys.contains ms)
      (fields : FieldsFit bare block (Entries.get? "fields" ms))
      (slots : SlotsFit block (Entries.get? "slots" ms))
      (inner : ∀ s, Entries.get? "slots" ms = some s → ∀ e ∈ s.members, ∀ slot,
        Entries.get? e.1 block.slots = some slot →
          ∀ x ∈ e.2.items, BlockFits c nulls bare slot.allowed x) :
      BlockFits c nulls bare allowed (.object ms)

/-- The blocks that a declaration of blocks takes; any when unset. -/
def Declaration.allowedBlocks (d : Declaration) : Option (List String) :=
  ((Entries.get? "allowed-blocks" d.options).bind Value.list?).map (·.filterMap Value.string?)

/-- An item of a list is as a declaration of lists wants it. -/
def ItemFits (c : Catalog) (nulls bare : Bool) (d : Declaration) (x : Value) : Prop :=
  match d.kind with
  | .repeater => EntryFits nulls (KeysWithin (Entries.contains · d.subfields)) x
  | .structured => EntryFits nulls (VariantFits d) x
  | .blocks => BlockFits c nulls bare d.allowedBlocks x
  | _ => True

/-- The containers of a value are as its declaration wants them. -/
def Fits (c : Catalog) (nulls bare : Bool) (d : Declaration) (v : Value) : Prop :=
  match v with
  | .list items => ∀ x ∈ items, ItemFits c nulls bare d x
  | .object ms => d.kind = .object → KeysWithin (Entries.contains · d.subfields) ms
  | _ => True

/-! ### Distinct names -/

/-- Each schema of a declaration has distinct names. -/
def Declaration.Distinct (d : Declaration) : Prop :=
  (Entries.keys d.subfields).Nodup ∧ ∀ e ∈ d.variants, (Entries.keys e.2).Nodup

/-- No variant has a field in the place of the key that names the variant. -/
def Declaration.KeepsVariant (d : Declaration) : Prop :=
  ∀ e ∈ d.variants, Entries.contains variantKey e.2 = false

/-- The fields and the slots of every block have distinct names. -/
def Catalog.Distinct (c : Catalog) : Prop :=
  ∀ name block, c.block? name = some block →
    (Entries.keys block.fields).Nodup ∧ block.slots.keys.Nodup

/-! ### Weaker fits -/

theorem FieldsFit.mono {bare : Bool} {block : Block} {fields : Option Value}
    (h : FieldsFit false block fields) : FieldsFit bare block fields := by
  rcases h with ⟨-, h⟩ | h
  · cases h
  · exact .inr h

theorem BlockFits.mono {c : Catalog} {nulls bare : Bool} {allowed : Option (List String)}
    {v : Value} (h : BlockFits c false false allowed v) : BlockFits c nulls bare allowed v := by
  induction h with
  | null allowed h => cases h
  | block name known taken keys fields slots _ ih =>
    exact .block name known taken keys fields.mono slots ih

end ContentSchema
