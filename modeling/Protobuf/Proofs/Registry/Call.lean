import Protobuf.Proofs.Registry.Built

/-!
# Calls on registries

Users of a registry go on by calls of seven kinds. Any sequence of them, refused or not, makes a
registry that is built, and every such registry is made in that way.

## Main definitions

* `Registry.Call` — a call.
* `Registry.Call.edit` — what it does.

## Main results

* `Registry.built_iff` — registries are made by sequences of calls
-/

namespace Protobuf

namespace Registry

/-- A call on a registry. -/
inductive Call where
  | define (package : String) (options : Options)
  | create (definitions : List Definition)
  | importFile (file : FileDecl) (name : Option String)
  | load (source : String) (name : Option String)
  | loadWith (available : List (String × String)) (source name : String)
  | reset
  | resolveAll (stamp : Nat)

/-- What a call does, with its errors seen as errors of schemas. -/
def Call.edit : Call → RegistryEdit SchemaError Unit
  | define package options => asSchemaEdit (Registry.define package options)
  | create definitions => asSchemaEdit (Registry.create definitions)
  | importFile file name => asSchemaEdit (Registry.importFile file name)
  | load source name => Registry.load source name
  | loadWith available source name => Registry.loadWith available source name
  | reset => Registry.reset
  | resolveAll stamp => Registry.resolveAll stamp

variable {r : Registry}

/-- A call makes a registry that is built out of one that is. -/
theorem Built.call (h : r.Built) (call : Call) : (r.after call.edit).Built := by
  cases call with
  | define package options => exact .define h package options
  | create definitions => exact .create h definitions
  | importFile file name => exact .importFile h file name
  | load source name => exact .load h source name
  | loadWith available source name => exact .loadWith h available source name
  | reset => exact .reset h
  | resolveAll stamp => exact .resolveAll h stamp

/-- What holds of empty registries and is kept by every call holds of all registries. -/
theorem Built.byCalls {P : Registry → Prop} (h : r.Built) (hempty : ∀ settings, P (.empty settings))
    (hcall : ∀ r, r.Built → P r → ∀ call : Call, P (r.after call.edit)) : P r := by
  induction h with
  | empty settings => exact hempty settings
  | load h source name ih => exact hcall _ h ih (.load source name)
  | loadWith h available source name ih => exact hcall _ h ih (.loadWith available source name)
  | importFile h file name ih => exact hcall _ h ih (.importFile file name)
  | create h definitions ih => exact hcall _ h ih (.create definitions)
  | define h package options ih => exact hcall _ h ih (.define package options)
  | reset h ih => exact hcall _ h ih .reset
  | resolveAll h stamp ih => exact hcall _ h ih (.resolveAll stamp)

/-- Registries are made by sequences of calls. -/
theorem built_iff : r.Built ↔ ∃ settings, ∃ calls : List Call,
    r = calls.foldl (fun r call => r.after call.edit) (.empty settings) := by
  constructor
  · intro h
    refine Built.byCalls (P := fun r => ∃ settings, ∃ calls : List Call,
      r = calls.foldl (fun r call => r.after call.edit) (.empty settings)) h
      (fun settings => ⟨settings, [], rfl⟩) ?_
    rintro r - ⟨settings, calls, rfl⟩ call
    exact ⟨settings, calls ++ [call], by rw [List.foldl_append]; rfl⟩
  · rintro ⟨settings, calls, rfl⟩
    exact List.foldlRecOn calls _ (.empty settings) fun r h call _ => h.call call

/-- A call leads on step by step. -/
theorem Call.keeps (call : Call) {r₀ : Registry} : Keeps (Reaches False r₀) call.edit := by
  cases call with
  | define package options => exact (keeps_define package options).adapt
  | create definitions => exact (keeps_create False.elim).adapt
  | importFile file name => exact (keeps_importFile False.elim name).adapt
  | load source name => exact keeps_load source name
  | loadWith available source name => exact keeps_loadWithin available _ source name
  | reset => exact keeps_reset
  | resolveAll stamp => exact keeps_resolveAll stamp

end Registry

end Protobuf
