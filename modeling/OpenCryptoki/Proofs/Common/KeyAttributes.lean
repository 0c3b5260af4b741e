import OpenCryptoki.Common.KeyAttributes
import OpenCryptoki.Lib.Run

/-!
# `OpenCryptoki.Proofs.Common.KeyAttributes`: attributes of a key that change in one way only

A key is followed through any calls of `C_SetAttributeValue` and `C_CopyObject`, with its copies and
the copies of those. Each of these keys carries the templates that it had before (`own`), and those
that it and the keys it comes from had (`past`).

The checks see one attribute at a time, in a temporary template. `Accepted` says what they let
through when a key exists already (`accepted_of_validate`); in these modes no check adds an
attribute. So a call changes an attribute only to an accepted value, or it changes an attribute of
the key blob of the token (`Change`, `setAttributes_change`). The invariant of a history follows
from this and from the transitivity of `OneWay` and `OneWaySelf`.

`key_attributes_one_way` is the result. A copy can be given any `CKA_MODIFIABLE` and any
`CKA_DESTROYABLE`, also a copy of a key that cannot be modified (`copy_of_frozen_key`). These two
are kept only for the key itself.
-/

set_option autoImplicit false

namespace OpenCryptoki.Proofs.Common

open Lib OpenCryptoki.Common

/-! ### What the checks accept -/

/-- What the checks let through in the modes `MODE_MODIFY` and `MODE_COPY`, for the attributes that
this module is about. -/
def Accepted (mode : AttrMode) (attr : Attribute) : Prop :=
  match attr.type with
  | .cls | .keyType | .isLocal | .alwaysSensitive | .neverExtractable => False
  | .sensitive | .wrapWithTrusted => attr.value = [1]
  | .extractable | .copyable => attr.value = [0]
  | .modifiable => mode = .copy
  | _ => True

/-- A check that lets an attribute through in such a mode keeps the list as it is. -/
def Passes (mode : AttrMode) (attr : Attribute) (r : Except CkRv AttrEffect) : Prop :=
  ∀ effect, r = .ok effect → Accepted mode attr ∧ effect = .keeps

/-- Only one byte is a `CK_BBOOL`. -/
theorem boolValue_eq_ok {attr : Attribute} {b : UInt8} :
    boolValue attr = .ok b ↔ attr.value = [b] := by
  rw [boolValue]
  split
  next c h => simp [h]
  next h => simpa using h b

section rules
variable {mode : AttrMode} {attr : Attribute}

/-- A refusal lets nothing through. -/
theorem passes_error {rc : CkRv} : Passes mode attr (.error rc) := nofun

/-- A case without a condition. -/
theorem passes_keeps : Passes mode attr (.ok .keeps) ↔ Accepted mode attr := by
  constructor
  · intro h
    exact (h _ rfl).1
  · intro h effect heffect
    exact ⟨h, (Except.ok.inj heffect).symm⟩

/-- A case with a condition at its end. -/
theorem passes_allowedIf {p : Prop} [Decidable p] :
    Passes mode attr (allowedIf p) ↔ (p → Accepted mode attr) := by
  rw [allowedIf]
  split
  next h => simp [passes_keeps, h]
  next h => simp [passes_error, h]

/-- A case in which the value has to be a `CK_BBOOL`. -/
theorem passes_boolValue_bind {f : UInt8 → Except CkRv AttrEffect} :
    Passes mode attr (boolValue attr >>= f) ↔
      ∀ b, attr.value = [b] → Passes mode attr (f b) := by
  constructor
  · intro h b hb effect heffect
    exact h effect (bind_eq_ok.mpr ⟨b, boolValue_eq_ok.mpr hb, heffect⟩)
  · intro h effect heffect
    obtain ⟨b, hb, heffect⟩ := bind_eq_ok.mp heffect
    exact h b (boolValue_eq_ok.mp hb) effect heffect

/-- A case with a condition. -/
theorem passes_require_bind {p : Prop} [Decidable p] {rc : CkRv}
    {f : Unit → Except CkRv AttrEffect} :
    Passes mode attr (require p rc >>= f) ↔ (p → Passes mode attr (f ())) := by
  constructor
  · intro h hp effect heffect
    exact h effect (bind_eq_ok.mpr ⟨(), require_eq_ok_iff.mpr hp, heffect⟩)
  · intro h effect heffect
    obtain ⟨_, hp, heffect⟩ := bind_eq_ok.mp heffect
    exact h (require_eq_ok_iff.mp hp) effect heffect

/-- A case that looks at the mode first. -/
theorem passes_ite {p : Prop} [Decidable p] {x y : Except CkRv AttrEffect} :
    Passes mode attr (if p then x else y) ↔
      (p → Passes mode attr x) ∧ (¬ p → Passes mode attr y) := by
  split
  next h => simp [h]
  next h => simp [h]

/-- An attribute array, which can be set only when a key comes into being. -/
theorem passes_validateArray {env : KeyEnv} :
    Passes mode attr (validateArray env attr false) := by
  rw [validateArray]
  split
  · exact passes_error
  · exact passes_allowedIf.mpr nofun

end rules

/-- No key comes into being in the two modes. -/
theorem ne_of_not_creating {mode : AttrMode} (h : mode.creating = false) :
    mode ≠ .create ∧ mode ≠ .keygen ∧ mode ≠ .derive ∧ mode ≠ .unwrap ∧ mode ≠ .encaps ∧
      mode ≠ .decaps ∧ mode ≠ .extract := by
  refine ⟨?_, ?_, ?_, ?_, ?_, ?_, ?_⟩ <;> rintro rfl <;> cases h

section checks
variable {env : KeyEnv} {mode : AttrMode} {attr : Attribute} {effect : AttrEffect}
  {soSession : Bool} (hmode : mode.creating = false)
include hmode

attribute [local simp] passes_error passes_keeps passes_allowedIf passes_boolValue_bind
  passes_require_bind passes_ite passes_validateArray validateUsage validateTrusted
  validateExtractable Accepted

/-- The attributes of all objects. -/
theorem templateValidateBaseAttribute_passes (attr : Attribute) :
    Passes mode attr (templateValidateBaseAttribute attr mode) := by
  rw [templateValidateBaseAttribute]
  split <;> simp +contextual [*, ne_of_not_creating hmode]

/-- The attributes of all keys. -/
theorem keyObjectValidateAttribute_passes (attr : Attribute) :
    Passes mode attr (keyObjectValidateAttribute attr mode) := by
  have hbase := templateValidateBaseAttribute_passes hmode attr
  rw [keyObjectValidateAttribute]
  split <;> simp +contextual [*, ne_of_not_creating hmode]

/-- The attributes of public keys. -/
theorem publKeyValidateAttribute_passes :
    Passes mode attr (publKeyValidateAttribute env soSession attr mode) := by
  have hkey := keyObjectValidateAttribute_passes hmode attr
  rw [publKeyValidateAttribute]
  split <;> simp +contextual [*, ne_of_not_creating hmode]

/-- The attributes of private keys. -/
theorem privKeyValidateAttribute_passes {tmpl : List Attribute} :
    Passes mode attr (privKeyValidateAttribute env tmpl attr mode) := by
  have hkey := keyObjectValidateAttribute_passes hmode attr
  rw [privKeyValidateAttribute]
  split <;> simp +contextual [*, ne_of_not_creating hmode]

/-- The attributes of secret keys. -/
theorem secretKeyValidateAttribute_passes :
    Passes mode attr (secretKeyValidateAttribute env soSession attr mode) := by
  have hkey := keyObjectValidateAttribute_passes hmode attr
  rw [secretKeyValidateAttribute]
  split <;> simp +contextual [*, ne_of_not_creating hmode]

/-- Whatever `template_validate_attribute` accepts for a key that exists is accepted as it is; only
the parts of a key may be replaced. -/
theorem accepted_of_validate {cls : KeyClass} {keyType : KeyType} {tmpl : List Attribute}
    (h : templateValidateAttribute env soSession cls keyType tmpl attr mode = .ok effect) :
    Accepted mode attr ∧ (effect = .keeps ∨ ∃ value, effect = .trims value ∧
        Accepted mode { attr with value := value }) := by
  unfold templateValidateAttribute at h
  split at h
  · cases h
  split at h
  next c hc =>
    split at h
    · cases h
    next value _ =>
      simp only [Except.ok.injEq] at h
      simp [Accepted, hc, ← h]
  next =>
    have hpasses : Passes mode attr (.ok effect) := by
      rw [← h]
      cases cls with
      | publicKey => exact publKeyValidateAttribute_passes hmode
      | privateKey => exact privKeyValidateAttribute_passes hmode
      | secretKey => exact secretKeyValidateAttribute_passes hmode
    exact ⟨(hpasses effect rfl).1, .inl (hpasses effect rfl).2⟩

end checks

/-! ### What a call changes -/

section change
variable {env : KeyEnv} {mode : AttrMode} {attrs : List Attribute}

/-- The attribute is accepted and is of a type that the call names. -/
def AcceptedOf (mode : AttrMode) (attrs : List Attribute) (attr : Attribute) : Prop :=
  Accepted mode attr ∧ ∃ a ∈ attrs, a.type = attr.type

/-- The attributes that a check leaves in the list for the attribute it looks at. -/
inductive Leaves (attr : Attribute) : AttrEffect → Attribute → Prop
  | keeps : Leaves attr .keeps attr
  | trims (value : List UInt8) : Leaves attr (.trims value) { attr with value := value }
  | kept (a : Attribute) : Leaves attr (.adds a) attr
  | added (a : Attribute) : Leaves attr (.adds a) a

variable {new : List Attribute} {uniqueId : Option (Vector UInt8 (2 * UNIQUE_ID_LEN))}
  {call : AttrCall} {key : KeyObj}

section
variable {soSession : Bool} {cls : KeyClass} {keyType : KeyType}

/-- The rule for the walk: what every check ensures for the attributes that it leaves holds for the
whole list. -/
theorem validateFrom_forall {P : Attribute → Prop} {gone : List AttrType}
    {done todo : List Attribute} (hdone : ∀ a ∈ done, P a)
    (hcheck : ∀ tmpl, ∀ attr ∈ todo, ∀ effect,
      templateValidateAttribute env soSession cls keyType tmpl attr mode = .ok effect →
        ∀ b, Leaves attr effect b → P b)
    (h : validateFrom env soSession cls keyType mode gone done todo = .ok new) :
    ∀ a ∈ new, P a := by
  -- the walk moves the attributes of `todo` to the end of `done`
  induction todo generalizing gone done with
  | nil =>
    cases h
    exact hdone
  | cons attr todo ih =>
    have hrest := fun tmpl a (ha : a ∈ todo) => hcheck tmpl a (List.mem_cons_of_mem attr ha)
    have hsnoc {as : List Attribute} {b : Attribute} (has : ∀ a ∈ as, P a) (hb : P b) :
        ∀ a ∈ as ++ [b], P a := by
      intro a ha
      rcases List.mem_append.mp ha with ha | ha
      · exact has a ha
      · rw [List.mem_singleton.mp ha]
        exact hb
    rw [validateFrom] at h
    split at h
    · exact ih hdone hrest h
    · dsimp only at h
      split at h
      next => cases h
      next heffect =>
        have hattr := hcheck _ attr List.mem_cons_self _ heffect
        exact ih (hsnoc hdone (hattr _ .keeps)) hrest h
      next value heffect =>
        have hattr := hcheck _ attr List.mem_cons_self _ heffect
        exact ih (hsnoc hdone (hattr _ (.trims value))) hrest h
      next b heffect =>
        have hattr := hcheck _ attr List.mem_cons_self _ heffect
        refine ih (hsnoc (fun a ha => ?_) (hattr _ (.kept b))) hrest h
        rcases List.mem_cons.mp ha with rfl | ha
        · exact hattr _ (.added a)
        · exact hdone a (List.mem_of_mem_filter ha)

/-- Only accepted attributes get through the validation. -/
theorem validateAttributes_accepts (hmode : mode.creating = false)
    (h : templateValidateAttributes env soSession cls keyType mode attrs = .ok new) :
    ∀ attr ∈ new, AcceptedOf mode attrs attr := by
  refine validateFrom_forall (by simp) (fun tmpl attr hattr effect heffect b hb => ?_) h
  obtain ⟨haccepted, hkeeps⟩ := accepted_of_validate hmode heffect
  cases hb with
  | keeps => exact ⟨haccepted, attr, hattr, rfl⟩
  | trims value =>
    have haccepted : Accepted mode { attr with value := value } := by simpa using hkeeps
    exact ⟨haccepted, attr, hattr, rfl⟩
  -- no check adds an attribute in these modes
  | kept a | added a => simp at hkeeps

end

/-- Attributes that are added come from the caller. -/
theorem mem_of_templateAddAttributes {tmpl : List Attribute}
    (h : templateAddAttributes env tmpl attrs = .ok new) :
    ∀ attr ∈ new, attr ∈ tmpl ∨ attr ∈ attrs := by
  induction attrs generalizing tmpl with
  | nil =>
    intro attr hattr
    cases h
    exact .inl hattr
  | cons a attrs ih =>
    intro attr hattr
    rw [templateAddAttributes] at h
    split at h
    · rcases ih h attr hattr with hattr | hattr
      · rcases List.mem_cons.mp hattr with rfl | hattr
        · exact .inr List.mem_cons_self
        · exact .inl (List.mem_of_mem_filter hattr)
      · exact .inr (List.mem_cons_of_mem a hattr)
    · cases h

/-- After a merge, an attribute is as it was or is one of the merged ones. -/
theorem keyTemplateMerge_cases (tmpl : KeyTemplate) (attrs : List Attribute) (type : AttrType) :
    keyTemplateMerge tmpl attrs type = tmpl type ∨
      ∃ attr ∈ attrs, attr.type = type ∧ keyTemplateMerge tmpl attrs type = some attr.value := by
  induction attrs generalizing tmpl with
  | nil => exact .inl rfl
  | cons a attrs ih =>
    rcases ih (Function.update tmpl a.type (some a.value)) with h | ⟨attr, hattr, htype, h⟩
    · by_cases htype : type = a.type
      · subst htype
        exact .inr ⟨a, List.mem_cons_self, rfl, h.trans (Function.update_self ..)⟩
      · exact .inl (h.trans (Function.update_of_ne htype ..))
    · exact .inr ⟨attr, List.mem_cons_of_mem a hattr, htype, h⟩

/-- An attribute is an old one or one of the new ones. -/
theorem mem_foldl_updateAttribute {tmpl : List Attribute} {attr : Attribute}
    (h : attr ∈ new.foldl updateAttribute tmpl) : attr ∈ tmpl ∨ attr ∈ new := by
  induction new generalizing tmpl with
  | nil => exact .inl h
  | cons a new ih =>
    rcases ih h with h | h
    · rcases List.mem_cons.mp h with rfl | h
      · exact .inr List.mem_cons_self
      · exact .inl (List.mem_of_mem_filter h)
    · exact .inr (List.mem_cons_of_mem a h)

/-- The attributes that the token itself changes. -/
def InternalAttr (type : AttrType) : Prop := BlobAttr type ∨ type = .uniqueId

/-- What can become of a template in a call: an attribute stays as it is, is an internal one, or
gets an accepted value that the call names. -/
def Change (mode : AttrMode) (attrs : List Attribute) (t t' : KeyTemplate) : Prop :=
  ∀ type, t' type = t type ∨ InternalAttr type ∨
    ∃ attr, AcceptedOf mode attrs attr ∧ attr.type = type ∧ t' type = some attr.value

/-- No change is a change. -/
theorem Change.refl (t : KeyTemplate) : Change mode attrs t t := fun _ => .inl rfl

/-- The attributes that are set were accepted. -/
theorem setAttributes_change (hmode : mode.creating = false) (call : AttrCall) (key : KeyObj) :
    Change mode attrs key.template (setAttributes env call key attrs mode).1 := by
  intro type
  rw [setAttributes]
  split
  next => exact .inl rfl
  next new hnew =>
    obtain ⟨tmpl, htmpl, hnew⟩ := bind_eq_ok.mp hnew
    have haccepted : ∀ attr ∈ new, AcceptedOf mode attrs attr := by
      intro attr hattr
      obtain ⟨hacc, a, ha, hatype⟩ := validateAttributes_accepts hmode hnew attr hattr
      rcases mem_of_templateAddAttributes htmpl a ha with ha | ha
      · cases ha
      · exact ⟨hacc, a, ha, hatype⟩
    have hobject : keyTemplateMerge key.template call.hook.object type = key.template type ∨
        InternalAttr type := by
      rcases keyTemplateMerge_cases key.template call.hook.object type
        with h | ⟨attr, hattr, rfl, -⟩
      · exact .inl h
      · exact .inr (.inl (call.hook.blob attr (List.mem_append_left _ hattr)))
    split
    · exact hobject.imp_right .inl
    · rcases keyTemplateMerge_cases (keyTemplateMerge key.template call.hook.object)
          (call.hook.new.foldl updateAttribute new) type with h | ⟨attr, hattr, rfl, h⟩
      · exact (hobject.imp h.trans .inl)
      · rcases mem_foldl_updateAttribute hattr with hattr | hattr
        · exact .inr (.inr ⟨attr, haccepted attr hattr, rfl, h⟩)
        · exact .inr (.inl (.inl (call.hook.blob attr (List.mem_append_right _ hattr))))

section
variable (call : AttrCall) (key : KeyObj)

/-- The same for `object_mgr_set_attribute_values`. -/
theorem objectMgrSetAttributeValues_change :
    Change .modify attrs key.template
      (objectMgrSetAttributeValues env call key attrs).1.template := by
  rw [objectMgrSetAttributeValues]
  split
  · exact .refl _
  split
  · exact .refl _
  · -- the new template does not depend on the result
    have hchange : Change .modify attrs key.template (setAttributes env call key attrs .modify).1 :=
      setAttributes_change rfl call key
    dsimp only
    split
    · exact hchange
    split
    · exact hchange
    split
    · split
      · exact hchange
      · exact .refl _
    · exact hchange

/-- If a key cannot be modified, then only an update of its key blob is accepted. -/
theorem objectMgrSetAttributeValues_of_frozen
    (hfrozen : templateAttributeGetBool key.template .modifiable = some 0) :
    (objectMgrSetAttributeValues env call key attrs).1.template = key.template ∨
      ∀ attr ∈ attrs, attr.type ∈ [AttrType.ibmOpaque, .ibmOpaqueReenc, .ibmOpaqueOld] := by
  by_cases hoverride : modifiableOverride env attrs = true
  · right
    simp only [modifiableOverride, Bool.and_eq_true, List.all_eq_true, decide_eq_true_eq]
      at hoverride
    exact hoverride.2
  · left
    simp [objectMgrSetAttributeValues, KeyObj.flag, hfrozen, hoverride]

end

/-- A copy has the attributes of the template, with another unique id. -/
theorem templateCopy_eq_ok {t t' : KeyTemplate} (h : templateCopy t uniqueId = .ok t')
    {type : AttrType} (htype : type ≠ .uniqueId) : t' type = t type := by
  unfold templateCopy at h
  split at h
  · cases h
    rfl
  split at h
  · cases h
  split at h
  · cases h
  · cases h
    exact Function.update_of_ne htype ..

section
variable {new : KeyObj} (h : objectMgrCopy env call key attrs uniqueId = .ok new)
include h

/-- A copy is the key with the template that comes out of the copy and of the merge. -/
theorem objectMgrCopy_eq_ok :
    ∃ tmpl, templateCopy key.template uniqueId = .ok tmpl ∧ new = { key with
        template := (setAttributes env call { key with template := tmpl } attrs .copy).1 } := by
  obtain ⟨_, _, h⟩ := bind_eq_ok.mp h
  obtain ⟨copy, hcopy, h⟩ := bind_eq_ok.mp h
  obtain ⟨_, _, h⟩ := bind_eq_ok.mp h
  obtain ⟨tmpl, htmpl, hcopy⟩ := bind_eq_ok.mp hcopy
  obtain ⟨_, _, hcopy⟩ := bind_eq_ok.mp hcopy
  have hnew : copy = new := by
    split at h
    · cases h
    · exact Except.ok.inj h
  subst hnew
  cases hcopy
  exact ⟨tmpl, htmpl, rfl⟩

/-- The same for the copy that `object_mgr_copy` makes. -/
theorem objectMgrCopy_change : Change .copy attrs key.template new.template := by
  obtain ⟨tmpl, htmpl, rfl⟩ := objectMgrCopy_eq_ok h
  have hchange : Change .copy attrs tmpl
      (setAttributes env call { key with template := tmpl } attrs .copy).1 :=
    setAttributes_change rfl call { key with template := tmpl }
  intro type
  by_cases htype : type = .uniqueId
  · exact .inr (.inl (.inr htype))
  · rw [← templateCopy_eq_ok htmpl htype]
    exact hchange type

end

end change

/-! ### One way -/

/-- A flag that is set stays set. -/
def StaysTrue (t t' : KeyTemplate) (type : AttrType) : Prop :=
  ∀ b, templateAttributeGetBool t type = some b → b ≠ 0 →
    ∃ b', templateAttributeGetBool t' type = some b' ∧ b' ≠ 0

/-- A flag that is not set stays so. -/
def StaysFalse (t t' : KeyTemplate) (type : AttrType) : Prop :=
  templateAttributeGetBool t type = some 0 → templateAttributeGetBool t' type = some 0

/-- How the template of a key, or of a copy of it, can differ from an earlier one. -/
structure OneWay (t t' : KeyTemplate) : Prop where
  sensitive : StaysTrue t t' .sensitive
  wrapWithTrusted : StaysTrue t t' .wrapWithTrusted
  extractable : StaysFalse t t' .extractable
  copyable : StaysFalse t t' .copyable
  alwaysSensitive : t' .alwaysSensitive = t .alwaysSensitive
  neverExtractable : t' .neverExtractable = t .neverExtractable
  isLocal : t' .isLocal = t .isLocal
  cls : t' .cls = t .cls
  keyType : t' .keyType = t .keyType

/-- How the template of a key can differ from an earlier one of the same key. A key that cannot be
modified keeps all attributes but those of its key blob. -/
structure OneWaySelf (t t' : KeyTemplate) : Prop where
  modifiable : t' .modifiable = t .modifiable
  destroyable : templateAttributeGetBool t .modifiable = some 0 → t' .destroyable = t .destroyable
  frozen : templateAttributeGetBool t .modifiable = some 0 →
    ∀ type, ¬ InternalAttr type → type ≠ .ibmOpaqueOld → t' type = t type

section oneWay
variable {t t' t'' : KeyTemplate} {type : AttrType} {mode : AttrMode} {attrs : List Attribute}

/-- What stays true twice stays true. -/
theorem StaysTrue.trans (h : StaysTrue t t' type) (h' : StaysTrue t' t'' type) :
    StaysTrue t t'' type := by
  intro b hb hne
  obtain ⟨b', hb', hne'⟩ := h b hb hne
  exact h' b' hb' hne'

/-- Two changes one way. -/
theorem OneWay.trans (h : OneWay t t') (h' : OneWay t' t'') : OneWay t t'' where
  sensitive := h.sensitive.trans h'.sensitive
  wrapWithTrusted := h.wrapWithTrusted.trans h'.wrapWithTrusted
  extractable := h'.extractable ∘ h.extractable
  copyable := h'.copyable ∘ h.copyable
  alwaysSensitive := h'.alwaysSensitive.trans h.alwaysSensitive
  neverExtractable := h'.neverExtractable.trans h.neverExtractable
  isLocal := h'.isLocal.trans h.isLocal
  cls := h'.cls.trans h.cls
  keyType := h'.keyType.trans h.keyType

/-- A flag depends on its own attribute only. -/
theorem templateAttributeGetBool_congr (h : t' type = t type) :
    templateAttributeGetBool t' type = templateAttributeGetBool t type := by
  rw [templateAttributeGetBool, templateAttributeGetBool, h]

/-- Two changes of the same object. -/
theorem OneWaySelf.trans (h : OneWaySelf t t') (h' : OneWaySelf t' t'') : OneWaySelf t t'' where
  modifiable := h'.modifiable.trans h.modifiable
  destroyable := by
    intro hfrozen
    have hfrozen' := (templateAttributeGetBool_congr h.modifiable).trans hfrozen
    exact (h'.destroyable hfrozen').trans (h.destroyable hfrozen)
  frozen := by
    intro hfrozen type hinternal hold
    have hfrozen' := (templateAttributeGetBool_congr h.modifiable).trans hfrozen
    exact (h'.frozen hfrozen' type hinternal hold).trans (h.frozen hfrozen type hinternal hold)

section
variable (h : Change mode attrs t t') (hinternal : ¬ InternalAttr type)
include h hinternal

/-- The attributes of this module are not internal ones. -/
theorem Change.at :
    t' type = t type ∨ ∃ value, Accepted mode ⟨type, value⟩ ∧ t' type = some value := by
  rcases h type with h | h | ⟨⟨_, value⟩, haccepted, rfl, h⟩
  · exact .inl h
  · exact absurd h hinternal
  · exact .inr ⟨value, haccepted.1, h⟩

/-- An attribute that is never accepted does not change. -/
theorem Change.keeps (hrefused : ∀ value, ¬ Accepted mode ⟨type, value⟩) : t' type = t type := by
  rcases h.at hinternal with h | ⟨value, haccepted, -⟩
  · exact h
  · exact absurd haccepted (hrefused value)

/-- A flag that may only be set stays set. -/
theorem Change.staysTrue (hone : ∀ value, Accepted mode ⟨type, value⟩ → value = [1]) :
    StaysTrue t t' type := by
  intro b hb hne
  rcases h.at hinternal with h | ⟨value, haccepted, h⟩
  · exact ⟨b, (templateAttributeGetBool_congr h).trans hb, hne⟩
  · rw [hone value haccepted] at h
    exact ⟨1, by simp [templateAttributeGetBool, h], by decide⟩

/-- A flag that may only be cleared stays cleared. -/
theorem Change.staysFalse (hzero : ∀ value, Accepted mode ⟨type, value⟩ → value = [0]) :
    StaysFalse t t' type := by
  intro hb
  rcases h.at hinternal with h | ⟨value, haccepted, h⟩
  · exact (templateAttributeGetBool_congr h).trans hb
  · rw [hzero value haccepted] at h
    simp [templateAttributeGetBool, h]

end

attribute [local simp] InternalAttr BlobAttr

/-- A change keeps the flags that go one way. -/
theorem Change.oneWay (h : Change mode attrs t t') : OneWay t t' where
  sensitive := h.staysTrue (by simp) fun _ h => h
  wrapWithTrusted := h.staysTrue (by simp) fun _ h => h
  extractable := h.staysFalse (by simp) fun _ h => h
  copyable := h.staysFalse (by simp) fun _ h => h
  alwaysSensitive := h.keeps (by simp) fun _ h => h
  neverExtractable := h.keeps (by simp) fun _ h => h
  isLocal := h.keeps (by simp) fun _ h => h
  cls := h.keeps (by simp) fun _ h => h
  keyType := h.keeps (by simp) fun _ h => h

end oneWay

/-! ### Histories -/

/-- A key with the templates that it had before, and with those of the keys it comes from. -/
structure KeyRecord where
  key : KeyObj
  own : List KeyTemplate
  past : List KeyTemplate

/-- A call for the key with number `n`, with any attributes and in any session. -/
inductive KeyCall
  | setAttributeValue (n : Nat) (call : AttrCall) (attrs : List Attribute)
  | copyObject (n : Nat) (call : AttrCall) (attrs : List Attribute)
      (uniqueId : Option (Vector UInt8 (2 * UNIQUE_ID_LEN)))

section histories
variable (env : KeyEnv)

/-- The key after `C_SetAttributeValue`, whether the call succeeds or not. -/
def KeyRecord.set (call : AttrCall) (attrs : List Attribute) (r : KeyRecord) : KeyRecord where
  key := (objectMgrSetAttributeValues env call r.key attrs).1
  own := r.key.template :: r.own
  past := r.key.template :: r.past

/-- The key that comes out of `C_CopyObject`, if it succeeds. -/
def KeyRecord.copies (call : AttrCall) (attrs : List Attribute)
    (uniqueId : Option (Vector UInt8 (2 * UNIQUE_ID_LEN))) (r : KeyRecord) : List KeyRecord :=
  match objectMgrCopy env call r.key attrs uniqueId with
  | .error _ => []
  | .ok new  => [{ key := new, own := [], past := r.key.template :: r.past }]

/-- A call. A handle that names no key changes nothing. -/
def keyStep (keys : List KeyRecord) : KeyCall → Option (List KeyRecord)
  | .setAttributeValue n call attrs => some (keys.modify n (KeyRecord.set env call attrs))
  | .copyObject n call attrs uniqueId =>
      some (keys ++ keys[n]?.toList.flatMap (KeyRecord.copies env call attrs uniqueId))

/-- A key at the start of a history. -/
def KeyRecord.fresh (key : KeyObj) : KeyRecord where
  key := key
  own := []
  past := []

/-- What a record says about the key. -/
structure KeyRecord.Sound (r : KeyRecord) : Prop where
  past : ∀ t ∈ r.past, OneWay t r.key.template
  own : ∀ t ∈ r.own, OneWaySelf t r.key.template

variable {env}

/-- At the start there are no earlier templates. -/
theorem KeyRecord.sound_fresh (key : KeyObj) : (KeyRecord.fresh key).Sound where
  past := by simp [KeyRecord.fresh]
  own := by simp [KeyRecord.fresh]

variable {r : KeyRecord}

/-- A single change, after all the earlier ones. -/
theorem oneWay_past (h : r.Sound) {mode : AttrMode} {attrs : List Attribute} {t' : KeyTemplate}
    (hchange : Change mode attrs r.key.template t') :
    ∀ t ∈ r.key.template :: r.past, OneWay t t' := by
  intro t ht
  rcases List.mem_cons.mp ht with rfl | ht
  · exact hchange.oneWay
  · exact (h.past t ht).trans hchange.oneWay

/-- The flags of the object itself go one way too. -/
theorem objectMgrSetAttributeValues_oneWaySelf (env : KeyEnv) (call : AttrCall) (key : KeyObj)
    (attrs : List Attribute) :
    OneWaySelf key.template (objectMgrSetAttributeValues env call key attrs).1.template := by
  have hchange : Change .modify attrs key.template
      (objectMgrSetAttributeValues env call key attrs).1.template :=
    objectMgrSetAttributeValues_change call key
  have hfrozen : templateAttributeGetBool key.template .modifiable = some 0 →
      ∀ type, ¬ InternalAttr type → type ≠ .ibmOpaqueOld →
        (objectMgrSetAttributeValues env call key attrs).1.template type = key.template type := by
    intro hmodifiable type hinternal hold
    rcases objectMgrSetAttributeValues_of_frozen call key hmodifiable with h | hopaque
    · rw [h]
    · rcases hchange type with h | h | ⟨attr, ⟨-, a, ha, hatype⟩, rfl, -⟩
      · exact h
      · exact absurd h hinternal
      · -- the call names only attributes of the key blob
        have hblob := hopaque a ha
        rw [hatype] at hblob
        simp_all [InternalAttr, BlobAttr]
  exact {
    modifiable := hchange.keeps (by simp [InternalAttr, BlobAttr]) fun _ h => by cases h
    destroyable := fun h => hfrozen h _ (by simp [InternalAttr, BlobAttr]) (by simp)
    frozen := hfrozen }

/-- A call that sets attributes keeps the record sound. -/
theorem KeyRecord.Sound.set (h : r.Sound) (call : AttrCall) (attrs : List Attribute) :
    (r.set env call attrs).Sound where
  past := oneWay_past h (objectMgrSetAttributeValues_change call r.key)
  own := by
    intro t ht
    have hself := objectMgrSetAttributeValues_oneWaySelf env call r.key attrs
    rcases List.mem_cons.mp ht with rfl | ht
    · exact hself
    · exact (h.own t ht).trans hself

/-- The copies of a key have sound records. -/
theorem KeyRecord.Sound.copies (h : r.Sound) (call : AttrCall) (attrs : List Attribute)
    (uniqueId : Option (Vector UInt8 (2 * UNIQUE_ID_LEN))) :
    ∀ c ∈ r.copies env call attrs uniqueId, c.Sound := by
  intro c hc
  rw [KeyRecord.copies] at hc
  split at hc
  · cases hc
  next new hnew =>
    rw [List.mem_singleton.mp hc]
    exact { past := oneWay_past h (objectMgrCopy_change hnew), own := by simp }

/-- What one call keeps. -/
theorem keyStep_sound {keys keys' : List KeyRecord} {call : KeyCall}
    (h : ∀ r ∈ keys, r.Sound) (hstep : keyStep env keys call = some keys') :
    ∀ r ∈ keys', r.Sound := by
  intro r hr
  cases call with
  | setAttributeValue n call attrs =>
    cases hstep
    obtain ⟨i, hi⟩ := List.mem_iff_getElem?.mp hr
    rw [List.getElem?_modify] at hi
    obtain ⟨r', hr', rfl⟩ := Option.map_eq_some_iff.mp hi
    have hsound := h r' (List.mem_of_getElem? hr')
    split
    · exact hsound.set call attrs
    · exact hsound
  | copyObject n call attrs uniqueId =>
    cases hstep
    rcases List.mem_append.mp hr with hr | hr
    · exact h r hr
    · obtain ⟨r', hr', hcopy⟩ := List.mem_flatMap.mp hr
      have hmem := List.mem_of_getElem? (Option.mem_toList.mp hr')
      exact (h r' hmem).copies call attrs uniqueId r hcopy

/-- **Attributes that change in one way only.** Take a key and any calls for it and its copies. At
any time, the key and each of its copies is related to all templates that it and its sources had
(`OneWay`): sensitive stays sensitive, not extractable and not copyable stay so, the restriction to
trusted wrapping keys stays, and `CKA_ALWAYS_SENSITIVE`, `CKA_NEVER_EXTRACTABLE` and `CKA_LOCAL` do
not change. A key keeps its `CKA_MODIFIABLE`, and its `CKA_DESTROYABLE` if it cannot be modified
(`OneWaySelf`). -/
theorem key_attributes_one_way (env : KeyEnv) (key : KeyObj) (calls : List KeyCall)
    (keys : List KeyRecord) (hrun : exec (keyStep env) [.fresh key] calls = some keys) :
    ∀ r ∈ keys, (∀ t ∈ r.past, OneWay t r.key.template) ∧
      ∀ t ∈ r.own, OneWaySelf t r.key.template := by
  intro r hr
  have hstart : ∀ r ∈ [KeyRecord.fresh key], r.Sound := by
    intro r hr
    rw [List.mem_singleton.mp hr]
    exact KeyRecord.sound_fresh key
  have hsound := exec_invariant (fun _ _ _ h hstep => keyStep_sound h hstep) hstart hrun r hr
  exact ⟨hsound.past, hsound.own⟩

/-- A token that defines all attributes and adds no checks of its own. -/
def plainEnv : KeyEnv where
  isAttributeDefined := fun _ => true
  validateAttributeArray := fun _ => none
  allowKeyMods := false
  validateComponent := fun _ _ _ _ value => .ok value
  secureKeyToken := false

/-- A call in a read-only session of the user. -/
def roUserCall : AttrCall where
  state := .roUserFunctions
  soSession := false
  hook := { object := [], new := [], error := none, blob := by simp }
  store := none

/-- A sensitive AES key that can be neither modified nor destroyed. -/
def frozenKey : KeyObj where
  cls := .secretKey
  keyType := .aes
  template := valueOf
    [⟨.sensitive, [1]⟩, ⟨.extractable, [0]⟩, ⟨.modifiable, [0]⟩, ⟨.destroyable, [0]⟩]

/-- The key is copied; the copy can be modified and destroyed. Then the copy is made copyable no
more, and it is asked to be extractable. -/
def thawCalls : List KeyCall :=
  [.copyObject 0 roUserCall [⟨.modifiable, [1]⟩, ⟨.destroyable, [1]⟩] none,
   .setAttributeValue 1 roUserCall [⟨.copyable, [0]⟩],
   .setAttributeValue 1 roUserCall [⟨.extractable, [1]⟩]]

/-- The frozen key and its copy. -/
def thawedKeys : List KeyRecord := (exec (keyStep plainEnv) [.fresh frozenKey] thawCalls).getD []

/-- A key that cannot be modified, and its copy that can. -/
theorem key_attributes_one_way_thawed :
    exec (keyStep plainEnv) [.fresh frozenKey] thawCalls = some thawedKeys ∧ thawedKeys.length = 2 ∧
      ∀ r ∈ thawedKeys, (∀ t ∈ r.past, OneWay t r.key.template) ∧
        ∀ t ∈ r.own, OneWaySelf t r.key.template :=
  ⟨rfl, rfl, key_attributes_one_way plainEnv frozenKey thawCalls thawedKeys rfl⟩

/-- A copy of a key that cannot be modified or destroyed can be both. -/
theorem copy_of_frozen_key :
    ∃ copy, objectMgrCopy plainEnv roUserCall frozenKey
        [⟨.modifiable, [1]⟩, ⟨.destroyable, [1]⟩] none = .ok copy ∧
      templateAttributeGetBool frozenKey.template .modifiable = some 0 ∧
      templateAttributeGetBool frozenKey.template .destroyable = some 0 ∧
      templateAttributeGetBool copy.template .modifiable = some 1 ∧
      templateAttributeGetBool copy.template .destroyable = some 1 :=
  ⟨_, rfl, rfl, rfl, rfl, rfl⟩

end histories

end OpenCryptoki.Proofs.Common
