import TypeInference.Cache
import TypeInference.Dump
import TypeInference.Inference.Checker
import TypeInference.Proofs.Expr.Handles
import TypeInference.Proofs.Inference.Completeness
import TypeInference.Proofs.Inference.Faults
import TypeInference.Proofs.Inference.FreeNames
import TypeInference.Proofs.Inference.NestedLets
import TypeInference.Proofs.Inference.Ownership
import TypeInference.Proofs.Inference.Pending
import TypeInference.Proofs.Inference.Phases
import TypeInference.Proofs.Inference.Provenance
import TypeInference.Proofs.Inference.Retry
import TypeInference.Proofs.Inference.Soundness
import TypeInference.Proofs.Names.SharedTable
import TypeInference.Proofs.Renaming.Instances
import TypeInference.Proofs.Renaming.Numbering
import TypeInference.Proofs.Renaming.Reuse
import TypeInference.Proofs.Ty.Readability
import TypeInference.Proofs.Unification.Conflicts
import TypeInference.Proofs.Unification.Descent
import TypeInference.Proofs.Unification.Order
import TypeInference.Ty.Alpha
