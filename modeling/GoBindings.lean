import GoBindings.Main
import GoBindings.Proofs.Calls
import GoBindings.Proofs.CamelCase
import GoBindings.Proofs.Captures
import GoBindings.Proofs.Embedding
import GoBindings.Proofs.EnumTables
import GoBindings.Proofs.EnumDefaults
import GoBindings.Proofs.MessageShapes
import GoBindings.Proofs.PackageIdentifiers
import GoBindings.Proofs.Parameters
import GoBindings.Proofs.RawTags
import GoBindings.Proofs.Reruns
import GoBindings.Proofs.SourcePaths
import GoBindings.Proofs.Statements
import GoBindings.Proofs.TypeNames
import GoBindings.Proofs.Unrelated
import GoBindings.Proofs.WithoutComments
import GoBindings.Proofs.Wrappers
import GoBindings.Proofs.ZigZag
