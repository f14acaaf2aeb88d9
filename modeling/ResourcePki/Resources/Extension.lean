import ResourcePki.Certificate.Extension
import ResourcePki.Resources.AsDer
import ResourcePki.Resources.IpDer

/-!
The extensions of a certificate that hold its resources. Both have to be critical, so that nobody
who does not understand them takes the certificate for one without limits.
-/

namespace ResourcePki

/-- The IP resources that an extension holds. -/
def IpResources.ofExtension (options : DecodeOptions) (e : Extension) :
    Except ValidationError IpResources := do
  e.requireCritical .ipNotCritical
  e.decodeValue (IpResources.read options)

/-- The AS resources that an extension holds. -/
def AsResources.ofExtension (options : DecodeOptions) (e : Extension) :
    Except ValidationError AsResources := do
  e.requireCritical .asNotCritical
  e.decodeValue (AsResources.read options)

end ResourcePki
